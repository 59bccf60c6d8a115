import Reargo.ByteConsts
import Reargo.EmulatorSemantics

/-!
# Evaluation over values known byte by byte

An operation's output from inputs of which some bytes are known, beside the step of the
interpreter on a state that agrees with the bytes known. Every byte the evaluation claims
to know is the byte the step writes, but for one operation at odd widths.
-/
namespace ByteEval

open PcodeModel EmulatorMemory EmulatorOps EmulatorSemantics ByteConsts Option BitVec
open ByteConst (byte_bytesAt byte_konst byte_merge byte_new byte_trunc)

def inputValue (op : PcodeOp) (i : ℕ) (read : VarnodeData → ByteConst) : Option ByteConst := do
  let vn ← op.input i
  if vn.size = 0 ∨ vn.size > 8 then none else some ((read vn).trunc vn.size)

def full (op : PcodeOp) (i : ℕ) (read : VarnodeData → ByteConst) : Option U64 := do
  let v ← inputValue op i read
  let vn ← op.input i
  v.get vn.size

def widened (isz : ℕ) (known : BitVec 8) : BitVec 8 :=
  known ||| (byteMask 8 &&& ~~~ byteMask isz)

def zext (isz : ℕ) (v : ByteConst) : ByteConst := .new v.value (widened isz v.known)

def sext (isz : ℕ) (v : ByteConst) : ByteConst :=
  match (v.bytesAt (isz - 1) 1).get 1 with
  | some top =>
    let fill : U64 := if top &&& 0x80 ≠ 0 then ~~~ bitMask isz else 0
    .new (v.value ||| fill) (widened isz v.known)
  | none => v

def subpiece (op : PcodeOp) (osz : ℕ) (read : VarnodeData → ByteConst) : Option ByteConst := do
  let k ← op.input 1
  if k.space = .const ∧ k.offset.toNat < 2 ^ 32 then
    let v ← inputValue op 0 read
    some (v.bytesAt k.offset.toNat osz)
  else none

def piece (op : PcodeOp) (read : VarnodeData → ByteConst) : Option ByteConst := do
  let lo_vn ← op.input 1
  let hi_vn ← op.input 0
  if (lo_vn.size + hi_vn.size) % 2 ^ 32 > 8 then none
  else
    let hi ← inputValue op 0 read
    let lo ← inputValue op 1 read
    some ((lo.trunc lo_vn.size).merge lo_vn.size (8 - lo_vn.size) hi)

/-- An operation of two inputs known in full. -/
def arith (op : PcodeOp) (read : VarnodeData → ByteConst) (f : U64 → U64 → U64) :
    Option ByteConst := do
  let a ← full op 0 read
  let b ← full op 1 read
  some (.konst (f a b) 8)

def shift (op : PcodeOp) (read : VarnodeData → ByteConst) (f : U64 → ℕ → U64) :
    Option ByteConst := do
  let a ← full op 0 read
  let n ← full op 1 read
  let vn ← op.input 0
  some (.konst (if n.toNat ≥ vn.size * 8 then 0 else f a n.toNat) 8)

/-- Both inputs are the same varnode. -/
def sameInputs (op : PcodeOp) : Bool := (op.input 0).isSome && op.input 0 == op.input 1

def evalWide (op : PcodeOp) (osz : ℕ) (read : VarnodeData → ByteConst) : Option ByteConst :=
  match op.opcode with
  | .copy => inputValue op 0 read
  | .intZExt => do
    let vn ← op.input 0
    let v ← inputValue op 0 read
    some (zext vn.size v)
  | .intSExt => do
    let vn ← op.input 0
    let v ← inputValue op 0 read
    some (sext vn.size v)
  | .subpiece => subpiece op osz read
  | .piece => piece op read
  | .intXor => if sameInputs op then some (.konst 0 8) else arith op read fun a b => a ^^^ b
  | .intSub => if sameInputs op then some (.konst 0 8) else arith op read fun a b => a - b
  | .intAdd => arith op read fun a b => a + b
  | .intAnd => arith op read fun a b => a &&& b
  | .intOr => arith op read fun a b => a ||| b
  | .intMult => arith op read fun a b => a * b
  | .intLeft => shift op read fun a n => a <<< n
  | .intRight => shift op read fun a n => a >>> n
  | .int2Comp => do
    let a ← full op 0 read
    some (.konst (-a) 8)
  | .intNegate => do
    let a ← full op 0 read
    some (.konst (~~~a) 8)
  | _ => none

/-- What is known of the output; `none` where it is not modelled or wider than a word. -/
def eval (op : PcodeOp) (read : VarnodeData → ByteConst) : Option ByteConst := do
  let out ← op.output
  if out.size = 0 ∨ out.size > 8 then none
  else
    let r ← evalWide op out.size read
    some (r.trunc out.size)

def Justified {w : ℕ} (b : ByteConst) (v : BitVec w) : Prop :=
  ∀ i < 8, ∀ x, b.byte i = some x → x = byteAt v i

def Consistent (s : EmulatorState) (op : PcodeOp) (read : VarnodeData → ByteConst) : Prop :=
  ∀ vn ∈ op.inputs, ∀ i < vn.size, ∀ x, (read vn).byte i = some x → x = byteAt (value s vn) i

/-- A negative value of three, five, six or seven bytes whose sign is known, extended. -/
def LosesSign (op : PcodeOp) (read : VarnodeData → ByteConst) : Prop :=
  op.opcode = .intSExt ∧ ∃ vn out, op.input 0 = some vn ∧ op.output = some out ∧
    vn.size < out.size ∧ ¬ WordSize vn.size ∧
    ∃ top, (read vn).byte (vn.size - 1) = some top ∧ top.msb = true

variable {i n : ℕ}

section Words

theorem byteAt_setWidth (v : U64) (hi : i < n) : byteAt (v.setWidth (8 * n)) i = byteAt v i := by
  apply byteAt_ext
  intro j hj
  rw [getLsbD_setWidth]
  simp [show 8 * i + j < 8 * n by omega]

theorem byteAt_ext64 (x : BitVec (8 * n)) (hi : i < 8) : byteAt (x.setWidth 64) i = byteAt x i := by
  apply byteAt_ext
  intro j hj
  rw [getLsbD_setWidth]
  simp [show 8 * i + j < 64 by omega]

theorem byteAt_of_le (x : BitVec (8 * n)) (hi : n ≤ i) : byteAt x i = 0 := by
  apply eq_of_getLsbD_eq
  intro j hj
  rw [getLsbD_byteAt, getLsbD_of_ge x _ (by omega)]
  simp

variable {b : ByteConst} {v : U64}

theorem justified_konst (v : U64) : Justified (.konst v 8) v := by
  intro i hi x hx
  rw [byte_konst v (by decide) hi, if_pos hi] at hx
  exact (some.inj hx).symm

theorem Justified.trunc (h : Justified b v) (n : ℕ) :
    Justified (b.trunc n) (v.setWidth (8 * n)) := by
  intro i hi x hx
  rw [byte_trunc n hi] at hx
  split at hx
  · next hn =>
    rw [byteAt_setWidth v hn]
    exact h i hi x hx
  · cases hx

theorem Justified.bytesAt (h : Justified b v) (k n : ℕ) :
    Justified (b.bytesAt k n) (v >>> (k * 8)) := by
  intro i hi x hx
  rw [byte_bytesAt k n hi] at hx
  split at hx
  · rw [byteAt_shiftRight]
    by_cases hki : k + i < 8
    · exact h _ hki x hx
    · rw [ByteConst.byte_eq_none_of_le (by omega)] at hx
      cases hx
  · cases hx

theorem byteAt_value_of_none (hi : i < 8) (h : b.byte i = none) : byteAt b.value i = 0 := by
  rw [ByteConst.byteAt_value hi]
  unfold ByteConst.byte at h
  split
  · next hk =>
    rw [if_pos hk] at h
    cases h
  · rfl

theorem getLsbD_widened (isz : ℕ) (known : BitVec 8) (hi : i < 8) :
    (widened isz known).getLsbD i = (known.getLsbD i || decide (isz ≤ i)) := by
  unfold widened
  rw [getLsbD_or, getLsbD_and, getLsbD_not, getLsbD_byteMask 8 hi, getLsbD_byteMask isz hi]
  have hnot : (!decide (i < isz)) = decide (isz ≤ i) := by
    rw [← decide_not]
    simp only [not_lt]
  simp [hi, hnot]

theorem Justified.zext {isz : ℕ} (h : Justified b v) (hnone : ∀ i < 8, isz ≤ i → b.byte i = none)
    (hzero : ∀ i < 8, isz ≤ i → byteAt v i = 0) : Justified (zext isz b) v := by
  intro i hi x hx
  unfold ByteEval.zext at hx
  rw [byte_new, getLsbD_widened isz _ hi] at hx
  by_cases his : isz ≤ i
  · rw [if_pos (by simp [his]), byteAt_value_of_none hi (hnone i hi his)] at hx
    rw [← some.inj hx, hzero i hi his]
  · refine h i hi x ?_
    unfold ByteConst.byte
    simpa [his] using hx

theorem get_one (b : ByteConst) : b.get 1 = (b.byte 0).map fun t => t.setWidth 64 := by
  have hmask : ∀ k : BitVec 8, k &&& byteMask 1 = byteMask 1 ↔ k.getLsbD 0 = true := by
    decide +kernel
  unfold ByteConst.get ByteConst.byte
  rw [if_neg (by decide)]
  by_cases hk : b.known.getLsbD 0 = true
  · have hvalue : b.value &&& bitMask 1 = (byteAt b.value 0).setWidth 64 := by
      apply eq_of_getLsbD_eq
      intro j hj
      rw [getLsbD_and, getLsbD_bitMask 1 hj, getLsbD_setWidth, getLsbD_byteAt]
      simp [hj, Bool.and_comm]
    rw [if_pos ((hmask _).mpr hk), if_pos hk, hvalue]
    rfl
  · rw [if_neg fun h => hk ((hmask _).mp h), if_neg hk]
    rfl

/-- The byte that fills what a sign extension adds. -/
def fillByte (top : Byte) : Byte := if top.msb then 0xff else 0

theorem byteAt_not_bitMask (isz : ℕ) (hi : i < 8) :
    byteAt (~~~ bitMask isz) i = if isz ≤ i then 0xff else 0 := by
  apply eq_of_getLsbD_eq
  intro j hj
  rw [getLsbD_byteAt, getLsbD_not, getLsbD_bitMask isz (by omega)]
  split
  · next h =>
    have hge : ¬ 8 * i + j < isz * 8 := by omega
    have hff : (0xff : Byte).getLsbD j = true := by
      interval_cases j <;> rfl
    rw [hff]
    simp [hj, hge]
    omega
  · next h =>
    have hlt : 8 * i + j < isz * 8 := by omega
    simp [hlt]

/-- What a sign extension knows: the input's bytes, and those above when the sign is known. -/
theorem byte_sext {isz : ℕ} (hnone : ∀ i < 8, isz ≤ i → b.byte i = none) (hi : i < 8) :
    (sext isz b).byte i = if i < isz then b.byte i else (b.byte (isz - 1)).map fillByte := by
  have htop : (b.bytesAt (isz - 1) 1).get 1 = (b.byte (isz - 1)).map fun t => t.setWidth 64 := by
    rw [get_one, byte_bytesAt _ _ (by decide), if_pos (by decide), add_zero]
  unfold sext
  rw [htop]
  cases hb : b.byte (isz - 1) with
  | none =>
    simp only [map_none]
    split
    · rfl
    · exact hnone i hi (by omega)
  | some top =>
    simp only [map_some]
    have hsign : ∀ t : Byte, t.setWidth 64 &&& (0x80 : U64) ≠ 0 ↔ t.msb = true := by
      decide +kernel
    simp only [hsign]
    rw [byte_new, getLsbD_widened isz _ hi, byteAt_or]
    by_cases his : i < isz
    · have hfill : byteAt (if top.msb = true then ~~~ bitMask isz else 0) i = 0 := by
        split
        · rw [byteAt_not_bitMask isz hi, if_neg (by omega)]
        · exact byteAt_zero i
      rw [hfill, if_pos his]
      unfold ByteConst.byte
      simp [show ¬ isz ≤ i by omega]
    · have hfill : byteAt (if top.msb = true then ~~~ bitMask isz else 0) i = fillByte top := by
        unfold fillByte
        split
        · rw [byteAt_not_bitMask isz hi, if_pos (by omega)]
        · exact byteAt_zero i
      rw [hfill, if_neg his, if_pos (by simp; omega),
        byteAt_value_of_none hi (hnone i hi (by omega))]
      simp

theorem byteAt_signExtend (x : BitVec (8 * n)) (hi : i < 8)
    (hni : n ≤ i) : byteAt (x.signExtend 64) i = if x.msb then 0xff else 0 := by
  apply eq_of_getLsbD_eq
  intro j hj
  have hge : ¬ 8 * i + j < 8 * n := by omega
  rw [getLsbD_byteAt, getLsbD_signExtend, if_neg hge]
  split
  · next hm =>
    have hff : (0xff : Byte).getLsbD j = true := by
      interval_cases j <;> rfl
    rw [hff, hm]
    simp [hj]
    omega
  · next hm => simp [hm]

theorem byteAt_signExtend_low (x : BitVec (8 * n)) (hi : i < 8) (hin : i < n) :
    byteAt (x.signExtend 64) i = byteAt x i := by
  apply byteAt_ext
  intro j hj
  rw [getLsbD_signExtend, if_pos (by omega)]
  simp [show 8 * i + j < 64 by omega]

theorem msb_top (hn : 0 < n) (x : BitVec (8 * n)) : (byteAt x (n - 1)).msb = x.msb := by
  rw [msb_eq_getLsbD_last, msb_eq_getLsbD_last, getLsbD_byteAt]
  have hlast : 8 * (n - 1) + (8 - 1) = 8 * n - 1 := by omega
  rw [hlast]
  simp

end Words

variable {v : ByteConst}

section Inputs

variable {s : EmulatorState} {op : PcodeOp} {read : VarnodeData → ByteConst}

theorem inputValue_eq_some (h : inputValue op i read = some v) :
    ∃ vn, op.input i = some vn ∧ 0 < vn.size ∧ vn.size ≤ 8 ∧ v = (read vn).trunc vn.size := by
  unfold inputValue at h
  cases hvn : op.input i with
  | none =>
    rw [hvn] at h
    cases h
  | some vn =>
    rw [hvn] at h
    simp only [bind_eq_bind, bind_some] at h
    split at h
    · cases h
    · exact ⟨vn, rfl, by omega, by omega, (some.inj h).symm⟩

variable (hread : Consistent s op read) (hconst : ∀ vn ∈ op.inputs, ConstFits vn)

include hread hconst

theorem inputValue_spec (h : inputValue op i read = some v) :
    ∃ vn, op.input i = some vn ∧ 0 < vn.size ∧ vn.size ≤ 8 ∧ v = (read vn).trunc vn.size ∧
      s.readVarnode vn = (value s vn).setWidth 64 ∧ Justified v (s.readVarnode vn) := by
  obtain ⟨vn, hvn, hpos, hle, rfl⟩ := inputValue_eq_some h
  have hmem : vn ∈ op.inputs := List.mem_of_getElem? hvn
  have hword := readVarnode_eq_value s hle (hconst vn hmem)
  refine ⟨vn, hvn, hpos, hle, rfl, hword, fun i hi x hx => ?_⟩
  rw [byte_trunc _ hi] at hx
  split at hx
  · next his =>
    rw [hword, byteAt_ext64 _ hi]
    exact hread vn hmem i his x hx
  · cases hx

theorem full_spec {a : U64} (h : full op i read = some a) :
    ∃ vn, op.input i = some vn ∧ vn.size ≤ 8 ∧ s.readVarnode vn = a := by
  unfold full at h
  cases hv : inputValue op i read with
  | none =>
    rw [hv] at h
    cases h
  | some v =>
    obtain ⟨vn, hvn, hpos, hle, -, hword, hjust⟩ := inputValue_spec hread hconst hv
    rw [hv, hvn] at h
    simp only [bind_eq_bind, bind_some] at h
    obtain ⟨-, -, hbytes⟩ := ByteConst.get_eq_some h
    refine ⟨vn, hvn, hle, eq_of_byteAt fun j hj => ?_⟩
    by_cases hjs : j < vn.size
    · exact (hjust j hj _ (hbytes j hj hjs)).symm
    · rw [hword, byteAt_ext64 _ hj, byteAt_of_le _ (by omega),
        ByteConst.byteAt_of_get h hj (by omega)]

end Inputs

section Step

variable {s : EmulatorState} {op : PcodeOp} {out x y : VarnodeData}

theorem needOutput_eq (hout : op.output = some out) : needOutput op = .ok out := by
  unfold needOutput
  rw [hout]

theorem needInput_eq (hx : op.input i = some x) : needInput op i = .ok x := by
  unfold needInput
  rw [hx]

theorem readInput_eq (hx : op.input i = some x) : readInput s op i = .ok (s.readVarnode x) := by
  unfold readInput
  rw [needInput_eq hx]
  rfl

theorem firstSize_eq (hx : op.input 0 = some x) : firstSize op = min x.size 8 := by
  unfold firstSize
  have hhead : op.inputs.head? = some x := by
    rw [List.head?_eq_getElem?]
    exact hx
  rw [hhead]
  rfl

variable (hout : op.output = some out)
include hout

theorem unary_eq (hx : op.input 0 = some x) (f : U64 → U64) :
    unary s op f = .ok (s.writeVarnode out (f (s.readVarnode x))) := by
  unfold unary
  rw [needOutput_eq hout, readInput_eq hx]
  rfl

theorem binary_eq (hx : op.input 0 = some x) (hy : op.input 1 = some y) (f : U64 → U64 → U64) :
    binary s op f = .ok (s.writeVarnode out (f (s.readVarnode x) (s.readVarnode y))) := by
  unfold binary
  rw [needOutput_eq hout, readInput_eq hx, readInput_eq hy]
  rfl

section

variable (hsize : out.size ≤ 8) (hx : op.input 0 = some x)

include hsize hx

theorem bitwise_eq (hy : op.input 1 = some y) (f : ∀ w, BitVec w → BitVec w → BitVec w) :
    bitwise s op f = .ok (s.writeVarnode out (f 64 (s.readVarnode x) (s.readVarnode y))) := by
  unfold bitwise
  rw [needOutput_eq hout, hx, hy]
  exact if_neg (not_lt.mpr hsize)

theorem multOp_eq (hy : op.input 1 = some y) :
    multOp s op = .ok (s.writeVarnode out (s.readVarnode x * s.readVarnode y)) := by
  unfold multOp
  rw [needOutput_eq hout, readInput_eq hx, readInput_eq hy]
  exact if_neg (not_lt.mpr hsize)

theorem copyOp_eq : copyOp s op = .ok (s.writeVarnode out (s.readVarnode x)) := by
  unfold copyOp
  rw [needOutput_eq hout, readInput_eq hx, needInput_eq hx]
  exact if_neg (not_lt.mpr hsize)

theorem negateOp_eq : negateOp s op = .ok (s.writeVarnode out (~~~ s.readVarnode x)) := by
  unfold negateOp
  rw [needOutput_eq hout, hx]
  exact if_neg (not_lt.mpr hsize)

end

theorem zextOp_eq (hx : op.input 0 = some x) :
    zextOp s op = .ok (s.writeWide out ((s.readVarnode x).setWidth 128)) := by
  unfold zextOp
  rw [needOutput_eq hout, readInput_eq hx]
  rfl

theorem sextOp_eq (hx : op.input 0 = some x) : sextOp s op =
      .ok (s.writeWide out ((intSExtWord x.size (s.readVarnode x)).signExtend 128)) := by
  unfold sextOp
  rw [needOutput_eq hout, needInput_eq hx]
  rfl

theorem pieceOp_eq (hsize : out.size ≤ 8) (hlo : y.size ≤ 8) (hx : op.input 0 = some x)
    (hy : op.input 1 = some y) : pieceOp s op = .ok (s.writeVarnode out
      (if y.size * 8 ≥ 64 then s.readVarnode y
        else (s.readVarnode x <<< (y.size * 8)) ||| s.readVarnode y)) := by
  have bits : y.size * 8 % 2 ^ 32 = y.size * 8 := Nat.mod_eq_of_lt (by omega)
  rw [pieceOp, needOutput_eq hout, needInput_eq hx, needInput_eq hy, ← bits]
  exact if_neg fun h => not_lt.mpr hsize h.1

theorem subpieceOp_eq (hx : op.input 0 = some x) (hy : op.input 1 = some y) :
    subpieceOp s op = .ok (s.writeWide out
      (if min ((s.readVarnode y).toNat * 8) (2 ^ 64 - 1) ≥ 128 then 0
        else s.readWide x >>> min ((s.readVarnode y).toNat * 8) (2 ^ 64 - 1))) := by
  unfold subpieceOp
  rw [needOutput_eq hout, needInput_eq hx, readInput_eq hy]
  rfl

end Step

/-- The step stores a word that has the bytes known. -/
def Covers (un : Uninterpreted) (s : EmulatorState) (op : PcodeOp) (out : VarnodeData)
    (b : ByteConst) : Prop :=
  ∃ v : U64, Stores s (execute un s op) out (v.setWidth (8 * out.size)) ∧ Justified b v

section Sound

variable {un : Uninterpreted} {s : EmulatorState} {op : PcodeOp} {out : VarnodeData}
  {read : VarnodeData → ByteConst} {b : ByteConst}

instance instDecidableWordSize (n : ℕ) : Decidable (WordSize n) :=
  inferInstanceAs (Decidable (n = 1 ∨ n = 2 ∨ n = 4 ∨ n = 8))

/-- What the interpreter writes past the end of a sign-extended input. -/
def extended (vn : VarnodeData) (top : Byte) : Byte := if WordSize vn.size then fillByte top else 0

variable {vn : VarnodeData}

theorem byteAt_intSExtWord (hpos : 0 < vn.size) (hi : i < 8) :
    byteAt (intSExtWord vn.size ((value s vn).setWidth 64)) i =
      if i < vn.size then byteAt (value s vn) i
      else extended vn (byteAt (value s vn) (vn.size - 1)) := by
  unfold extended
  by_cases hw : WordSize vn.size
  · rw [intSExtWord_ext hw, if_pos hw]
    split
    · next his => exact byteAt_signExtend_low _ hi his
    · next his =>
      rw [byteAt_signExtend _ hi (by omega)]
      unfold fillByte
      rw [msb_top hpos]
  · have hword : ∀ n, ¬ WordSize n → ∀ a : U64, intSExtWord n a = a := by
      intro n hn a
      unfold intSExtWord
      split
      · exact absurd (.inl rfl) hn
      · exact absurd (.inr (.inl rfl)) hn
      · exact absurd (.inr (.inr (.inl rfl))) hn
      · rfl
    rw [hword _ hw, byteAt_ext64 _ hi, if_neg hw]
    split
    · rfl
    · exact byteAt_of_le _ (by omega)

theorem fillByte_ne_zero {top : Byte} : fillByte top ≠ 0 ↔ top.msb = true := by
  unfold fillByte
  cases top.msb <;> simp

variable (hsize : out.size ≤ 8) {f : U64 → U64 → U64}

include hsize

theorem covers_word {v : U64}
    (hexec : execute un s op = .ok (s.writeVarnode out v)) (h : Justified b v) :
    Covers un s op out b := by
  refine ⟨v, ?_, h⟩
  rw [hexec]
  exact stores_writeVarnode s hsize rfl

/-- Equal inputs cancel, whatever their size. -/
theorem covers_same (h : sameInputs op = true) (hf : ∀ a, f a a = 0)
    (hexec : ∀ x y, op.input 0 = some x → op.input 1 = some y →
    execute un s op = .ok (s.writeVarnode out (f (s.readVarnode x) (s.readVarnode y)))) :
    Covers un s op out (.konst 0 8) := by
  unfold sameInputs at h
  simp only [Bool.and_eq_true, beq_iff_eq] at h
  obtain ⟨x, hx⟩ := isSome_iff_exists.mp h.1
  have hy : op.input 1 = some x := by rw [← h.2, hx]
  refine covers_word hsize (hexec x x hx hy) ?_
  rw [hf]
  exact justified_konst 0

variable (hread : Consistent s op read) (hconst : ∀ vn ∈ op.inputs, ConstFits vn)
include hread hconst

theorem covers_arith (hexec : ∀ x y, op.input 0 = some x → op.input 1 = some y →
    execute un s op = .ok (s.writeVarnode out (f (s.readVarnode x) (s.readVarnode y))))
    (h : arith op read f = some b) : Covers un s op out b := by
  unfold arith at h
  simp only [bind_eq_bind, bind_eq_some_iff] at h
  obtain ⟨a, ha, c, hc, hb⟩ := h
  obtain ⟨x, hx, -, rfl⟩ := full_spec hread hconst ha
  obtain ⟨y, hy, -, rfl⟩ := full_spec hread hconst hc
  refine covers_word hsize (hexec x y hx hy) ?_
  rw [← some.inj hb]
  exact justified_konst _

theorem covers_shift {f : U64 → ℕ → U64} {g : ℕ → U64 → U64 → U64}
    (hg : ∀ n ≤ 8, ∀ a c : U64, g n a c = if c.toNat ≥ n * 8 then 0 else f a c.toNat)
    (hexec : ∀ x y, op.input 0 = some x → op.input 1 = some y → execute un s op =
        .ok (s.writeVarnode out (g (min x.size 8) (s.readVarnode x) (s.readVarnode y))))
    (h : shift op read f = some b) : Covers un s op out b := by
  unfold shift at h
  simp only [bind_eq_bind, bind_eq_some_iff] at h
  obtain ⟨a, ha, c, hc, vn, hvn, hb⟩ := h
  obtain ⟨x, hx, hx8, rfl⟩ := full_spec hread hconst ha
  obtain ⟨y, hy, -, rfl⟩ := full_spec hread hconst hc
  obtain rfl : x = vn := some.inj (hx.symm.trans hvn)
  refine covers_word hsize (hexec x y hx hy) ?_
  rw [← some.inj hb, min_eq_left hx8, hg x.size hx8]
  exact justified_konst _

section

variable (hout : op.output = some out)

include hout

theorem covers_subpiece
    (hexec : execute un s op = subpieceOp s op) (h : subpiece op out.size read = some b) :
    Covers un s op out b := by
  unfold subpiece at h
  simp only [bind_eq_bind, bind_eq_some_iff] at h
  obtain ⟨k, hk, h⟩ := h
  split at h
  · next hkc =>
    simp only [bind_eq_some_iff] at h
    obtain ⟨v, hv, hb⟩ := h
    obtain ⟨x, hx, -, hx8, -, hword, hjust⟩ := inputValue_spec hread hconst hv
    have hoff : s.readVarnode k = k.offset := by
      rw [EmulatorState.readVarnode, PageAccess.readVarnode, if_pos hkc.1]
    have hwide := readWide_eq_value s hx8 (hconst x (List.mem_of_getElem? hx))
    refine ⟨s.readVarnode x >>> (k.offset.toNat * 8), ?_, ?_⟩
    · rw [hexec, subpieceOp_eq hout hx hk, hoff]
      refine stores_writeWide s (by omega) ?_
      have hmin : min (k.offset.toNat * 8) (2 ^ 64 - 1) = k.offset.toNat * 8 := by omega
      rw [hmin, hword, hwide]
      apply eq_of_getLsbD_eq
      intro j hj
      split
      · next hbig =>
        rw [getLsbD_setWidth, getLsbD_setWidth, getLsbD_ushiftRight,
          getLsbD_of_ge _ _ (show 64 ≤ k.offset.toNat * 8 + j by omega)]
        simp
      · rw [getLsbD_setWidth, getLsbD_setWidth, getLsbD_ushiftRight,
          getLsbD_ushiftRight, getLsbD_setWidth, getLsbD_setWidth]
        by_cases hlt : k.offset.toNat * 8 + j < 64
        · simp [hlt, show k.offset.toNat * 8 + j < 128 by omega]
        · rw [getLsbD_of_ge _ _ (show 8 * x.size ≤ k.offset.toNat * 8 + j by omega)]
          simp
    · rw [← some.inj hb]
      exact hjust.bytesAt _ _
  · cases h

theorem covers_piece (hexec : execute un s op = pieceOp s op) (h : piece op read = some b) :
    Covers un s op out b := by
  unfold piece at h
  simp only [bind_eq_bind, bind_eq_some_iff] at h
  obtain ⟨y, hy, x, hx, h⟩ := h
  split at h
  · cases h
  · next hfit =>
    simp only [bind_eq_some_iff] at h
    obtain ⟨hi, hhi, lo, hlo, hb⟩ := h
    obtain ⟨x', hx', hxpos, hx8, -, hxword, hxjust⟩ := inputValue_spec hread hconst hhi
    obtain ⟨y', hy', hypos, hy8, -, hyword, hyjust⟩ := inputValue_spec hread hconst hlo
    obtain rfl : x = x' := some.inj (hx.symm.trans hx')
    obtain rfl : y = y' := some.inj (hy.symm.trans hy')
    have hsum : y.size + x.size ≤ 8 := by omega
    refine covers_word hsize (hexec.trans (pieceOp_eq hout hsize hy8 hx hy)) ?_
    rw [← some.inj hb, if_neg (by omega)]
    intro i hi₈ z hz
    rw [byte_merge (by omega) _ _ hi₈] at hz
    rw [byteAt_or, byteAt_shiftLeft _ _ hi₈]
    by_cases hly : y.size ≤ i
    · rw [if_pos ⟨hly, by omega⟩] at hz
      rw [if_pos hly, hyword, byteAt_ext64 _ hi₈, byteAt_of_le _ hly]
      simpa using hxjust _ (by omega) z hz
    · rw [if_neg fun h => hly h.1, byte_trunc _ hi₈, if_pos (by omega)] at hz
      rw [if_neg hly]
      simpa using hyjust i hi₈ z hz

theorem covers_zext (hexec : execute un s op = zextOp s op) (hvn : op.input 0 = some vn)
    (hv : inputValue op 0 read = some v) : Covers un s op out (zext vn.size v) := by
  obtain ⟨x, hx, -, -, rfl, hword, hjust⟩ := inputValue_spec hread hconst hv
  obtain rfl : x = vn := some.inj (hx.symm.trans hvn)
  refine ⟨s.readVarnode x, ?_, hjust.zext (fun i hi hle => ?_) fun i hi hle => ?_⟩
  · rw [hexec, zextOp_eq hout hx]
    exact stores_writeWide s (by omega) (ext_cut (by decide) _)
  · rw [byte_trunc _ hi, if_neg (by omega)]
  · rw [hword, byteAt_ext64 _ hi, byteAt_of_le _ hle]

theorem sext_iff (hop : op.opcode = .intSExt) (hvn : op.input 0 = some vn)
    (hv : inputValue op 0 read = some v) :
    ∃ r : BitVec (8 * out.size), Stores s (execute un s op) out r ∧
      (Justified ((sext vn.size v).trunc out.size) r ↔ ¬ LosesSign op read) := by
  obtain ⟨x, hx, hpos, hx8, rfl, hword, -⟩ := inputValue_spec hread hconst hv
  obtain rfl : x = vn := some.inj (hx.symm.trans hvn)
  have hexec : execute un s op = sextOp s op := by
    unfold execute
    rw [hop]
    rfl
  have hloses : LosesSign op read ↔ x.size < out.size ∧ ¬ WordSize x.size ∧
      ∃ top, (read x).byte (x.size - 1) = some top ∧ top.msb = true := by
    constructor
    · rintro ⟨-, x', out', hx', hout', hlt, hnot, htop⟩
      obtain rfl : x = x' := some.inj (hx.symm.trans hx')
      obtain rfl : out = out' := some.inj (hout.symm.trans hout')
      exact ⟨hlt, hnot, htop⟩
    · rintro ⟨hlt, hnot, htop⟩
      exact ⟨hop, x, out, hx, hout, hlt, hnot, htop⟩
  refine ⟨(intSExtWord x.size (s.readVarnode x)).setWidth (8 * out.size), ?_, ?_⟩
  · rw [hexec, sextOp_eq hout hx]
    refine stores_writeWide s (by omega) ?_
    apply eq_of_getLsbD_eq
    intro j hj
    rw [getLsbD_setWidth, getLsbD_setWidth, getLsbD_signExtend, if_pos (by omega)]
    simp [show j < 128 by omega]
  · have hnone : ∀ i < 8, x.size ≤ i → ((read x).trunc x.size).byte i = none := by
      intro i hi hle
      rw [byte_trunc _ hi, if_neg (by omega)]
    have hlast : ((read x).trunc x.size).byte (x.size - 1) = (read x).byte (x.size - 1) := by
      rw [byte_trunc _ (by omega), if_pos (by omega)]
    have hstored : ∀ i < out.size, byteAt ((intSExtWord x.size (s.readVarnode x)).setWidth
        (8 * out.size)) i = if i < x.size then byteAt (value s x) i
          else extended x (byteAt (value s x) (x.size - 1)) := by
      intro i hi
      rw [byteAt_setWidth _ hi, hword, byteAt_intSExtWord hpos (by omega)]
    have htopvalue : ∀ top, (read x).byte (x.size - 1) = some top →
        top = byteAt (value s x) (x.size - 1) := fun top htop =>
      hread x (List.mem_of_getElem? hx) _ (by omega) top htop
    rw [hloses]
    constructor
    · rintro hjustified ⟨hlt, hnot, top, htop, hmsb⟩
      -- the first byte past the input
      have hbyte : ((sext x.size ((read x).trunc x.size)).trunc out.size).byte x.size =
          some (fillByte top) := by
        rw [byte_trunc _ (by omega), if_pos hlt, byte_sext hnone (by omega),
          if_neg (lt_irrefl _), hlast, htop]
        rfl
      have hzero := hjustified x.size (by omega) _ hbyte
      rw [hstored _ hlt, if_neg (lt_irrefl _), extended, if_neg hnot] at hzero
      exact fillByte_ne_zero.mpr hmsb hzero
    · intro hnot i hi z hz
      rw [byte_trunc _ hi] at hz
      split at hz
      · next his =>
        rw [byte_sext hnone hi] at hz
        rw [hstored i his]
        split at hz
        · next hix =>
          rw [if_pos hix]
          rw [byte_trunc _ hi, if_pos hix] at hz
          exact hread x (List.mem_of_getElem? hx) i hix z hz
        · next hix =>
          rw [if_neg hix]
          rw [hlast] at hz
          obtain ⟨top, htop, rfl⟩ := map_eq_some_iff.mp hz
          rw [← htopvalue top htop]
          unfold extended
          split
          · rfl
          · next hw =>
            by_contra hne
            exact hnot ⟨by omega, hw, top, htop, fillByte_ne_zero.mp hne⟩
      · cases hz

theorem evalWide_covers (hop : op.opcode ≠ .intSExt)
    (h : evalWide op out.size read = some b) : Covers un s op out b := by
  have harith {f : U64 → U64 → U64} (hexec : execute un s op = binary s op f) :
      arith op read f = some b → Covers un s op out b :=
    covers_arith hsize hread hconst fun x y hx hy => hexec.trans (binary_eq hout hx hy f)
  have hbitwise {f : ∀ w, BitVec w → BitVec w → BitVec w} (hexec : execute un s op = bitwise s op f) :
      arith op read (f 64) = some b → Covers un s op out b :=
    covers_arith hsize hread hconst fun x y hx hy => hexec.trans (bitwise_eq hout hsize hx hy f)
  obtain ⟨oc, output, inputs⟩ := op
  unfold evalWide at h
  cases oc with
  | copy =>
    obtain ⟨x, hx, -, -, -, -, hjust⟩ := inputValue_spec hread hconst h
    exact covers_word hsize (copyOp_eq hout hsize hx) hjust
  | intZExt =>
    simp only [bind_eq_bind, bind_eq_some_iff] at h
    obtain ⟨vn, hvn, v, hv, hb⟩ := h
    rw [← some.inj hb]
    exact covers_zext hsize hread hconst hout rfl hvn hv
  | intSExt => exact absurd rfl hop
  | subpiece =>
    exact covers_subpiece hsize hread hconst hout rfl h
  | piece =>
    exact covers_piece hsize hread hconst hout rfl h
  | intXor =>
    simp only at h
    split at h
    · next hsame =>
      rw [← some.inj h]
      exact covers_same hsize hsame (f := fun a c => a ^^^ c) (fun a => xor_self)
        fun x y hx hy => bitwise_eq hout hsize hx hy fun _ a c => a ^^^ c
    · exact hbitwise (f := fun _ a c => a ^^^ c) rfl h
  | intSub =>
    simp only at h
    split at h
    · next hsame =>
      rw [← some.inj h]
      exact covers_same hsize hsame (f := fun a c => a - c) (fun a => sub_self a)
        fun x y hx hy => binary_eq hout hx hy _
    · exact harith rfl h
  | intAdd =>
    exact harith rfl h
  | intAnd =>
    exact hbitwise (f := fun _ a c => a &&& c) rfl h
  | intOr =>
    exact hbitwise (f := fun _ a c => a ||| c) rfl h
  | intMult =>
    exact covers_arith hsize hread hconst (fun x y hx hy => multOp_eq hout hsize hx hy) h
  | intLeft =>
    refine covers_shift hsize hread hconst (g := intLeft) (fun n hn a c => ?_)
      (fun x y hx hy => ?_) h
    · unfold intLeft wrappingShl
      split
      · rfl
      · next hlt => rw [count_lt_64 hn hlt]
    · exact (binary_eq hout hx hy _).trans (by rw [firstSize_eq hx])
  | intRight =>
    refine covers_shift hsize hread hconst (g := intRight) (fun n hn a c => ?_)
      (fun x y hx hy => ?_) h
    · unfold intRight wrappingShr
      split
      · rfl
      · next hlt => rw [count_lt_64 hn hlt]
    · exact (binary_eq hout hx hy _).trans (by rw [firstSize_eq hx])
  | int2Comp =>
    simp only [bind_eq_bind, bind_eq_some_iff] at h
    obtain ⟨a, ha, hb⟩ := h
    obtain ⟨x, hx, -, rfl⟩ := full_spec hread hconst ha
    refine covers_word hsize (unary_eq hout hx _) ?_
    rw [← some.inj hb, neg_eq_not_add]
    exact justified_konst _
  | intNegate =>
    simp only [bind_eq_bind, bind_eq_some_iff] at h
    obtain ⟨a, ha, hb⟩ := h
    obtain ⟨x, hx, -, rfl⟩ := full_spec hread hconst ha
    refine covers_word hsize (negateOp_eq hout hsize hx) ?_
    rw [← some.inj hb]
    exact justified_konst _
  | _ => cases h

end

omit hsize hread hconst

theorem eval_iff (hread : Consistent s op read) (hconst : ∀ vn ∈ op.inputs, ConstFits vn)
    (hout : op.output = some out) (h : eval op read = some b) :
    out.size ≤ 8 ∧
      ∃ r, Stores s (execute un s op) out r ∧ (Justified b r ↔ ¬ LosesSign op read) := by
  unfold eval at h
  rw [hout] at h
  simp only [bind_eq_bind, bind_some] at h
  split at h
  · cases h
  · next hsize =>
    have h8 : out.size ≤ 8 := by omega
    simp only [bind_eq_some_iff] at h
    obtain ⟨c, hc, hb⟩ := h
    rw [← some.inj hb]
    by_cases hop : op.opcode = .intSExt
    · unfold evalWide at hc
      rw [hop] at hc
      simp only [bind_eq_bind, bind_eq_some_iff] at hc
      obtain ⟨vn, hvn, v, hv, hcb⟩ := hc
      rw [← some.inj hcb]
      exact ⟨h8, sext_iff h8 hread hconst hout hop hvn hv⟩
    · have hcovers : Covers un s op out c := evalWide_covers h8 hread hconst hout hop hc
      obtain ⟨v, hstores, hjust⟩ := hcovers
      exact ⟨h8, _, hstores, iff_of_true (hjust.trunc out.size) fun hl => hop hl.1⟩

/-- The bytes known of an output are those the step writes exactly when no sign is lost, and
the operations on known bytes keep those bytes they are told of, the others stored as zero. -/
theorem eval_keeps_justified_bytes (un : Uninterpreted) (s : EmulatorState) (op : PcodeOp)
    (read : VarnodeData → ByteConst) :
    (∀ out b, op.output = some out → (∀ vn ∈ op.inputs, ConstFits vn) →
      Consistent s op read → eval op read = some b →
      ∃ r, Stores s (execute un s op) out r ∧ (Justified b r ↔ ¬ LosesSign op read)) ∧
    (∀ b c : ByteConst, (∀ i < 8, b.byte i = c.byte i) ↔ b = c) ∧
    ∀ (b c : ByteConst) (pos size i : ℕ), i < 8 → (b.byte i = none → byteAt b.value i = 0) ∧
      (pos < 8 → (b.merge pos size c).byte i =
        if pos ≤ i ∧ i < pos + size then c.byte (i - pos) else b.byte i) ∧
      ((b.bytesAt pos size).byte i = if i < size then b.byte (pos + i) else none) ∧
      ((b.trunc size).byte i = if i < size then b.byte i else none) ∧
      ((b.intersect c).byte i = if b.byte i = c.byte i then b.byte i else none) := by
  refine ⟨fun out b hout hconst hread h => ?_, fun b c => ⟨ByteConst.ext_byte, ?_⟩,
    fun b c pos size i hi => ⟨byteAt_value_of_none hi, ?_, ?_, ?_, ?_⟩⟩
  · exact (eval_iff hread hconst hout h).2
  · rintro rfl i _
    rfl
  · exact fun hpos => byte_merge hpos size c hi
  · exact byte_bytesAt pos size hi
  · exact byte_trunc size hi
  · exact ByteConst.byte_intersect b c hi

def extendedConstant (v : U64) (n : ℕ) : PcodeOp :=
  ⟨.intSExt, some ⟨.unique, 0, 4⟩, [⟨.const, v, n⟩]⟩

def constantRead (vn : VarnodeData) : ByteConst := .konst vn.offset vn.size

theorem consistent_constant {v : U64} (hn : ¬ (n = 0 ∨ n > 8)) :
    Consistent s (extendedConstant v n) constantRead := by
  intro vn hvn i hi x hx
  obtain rfl := List.mem_singleton.mp hvn
  have hi8 : i < 8 := by
    have hin : i < n := hi
    omega
  have hbyte := byte_konst v hn hi8
  rw [if_pos hi] at hbyte
  have hx' : some (byteAt v i) = some x := hbyte.symm.trans hx
  rw [← some.inj hx', value, if_pos rfl]
  exact (byteAt_setWidth v hi).symm

theorem eval_keeps_justified_bytes_extended :
    ∃ r, Stores EmulatorState.new (execute (fun s _ => .ok s) EmulatorState.new
        (extendedConstant 0x8000 2)) ⟨.unique, 0, 4⟩ r ∧ Justified (.konst 0xffff8000 4) r := by
  have fits : ∀ vn ∈ (extendedConstant 0x8000 2).inputs, ConstFits vn := by
    intro vn hvn
    obtain rfl := List.mem_singleton.mp hvn
    intro _
    decide
  obtain ⟨r, stores, justified⟩ := (eval_keeps_justified_bytes (fun s _ => .ok s)
    EmulatorState.new (extendedConstant 0x8000 2) constantRead).1 _ (.konst 0xffff8000 4) rfl
    fits (consistent_constant (by decide)) (by decide)
  refine ⟨r, stores, justified.mpr ?_⟩
  rintro ⟨-, vn, out, hvn, -, -, hword, -⟩
  cases hvn
  exact hword (by decide)

/-- Three bytes with the sign set: the evaluation fills the fourth, the step does not. -/
theorem sign_of_three_bytes_lost :
    ¬ ∀ un s op out read b, op.output = some out → (∀ vn ∈ op.inputs, ConstFits vn) →
      Consistent s op read → eval op read = some b →
      ∃ r, Stores s (execute un s op) out r ∧ Justified b r := by
  intro h
  have hfits : ∀ vn ∈ (extendedConstant 0x800000 3).inputs, ConstFits vn := by
    intro vn hvn
    obtain rfl := List.mem_singleton.mp hvn
    intro _
    decide
  have hread : Consistent EmulatorState.new (extendedConstant 0x800000 3) constantRead :=
    consistent_constant (by decide)
  have heval : eval (extendedConstant 0x800000 3) constantRead = some (.konst 0xff800000 4) := by
    decide
  obtain ⟨r, hstores, hjust⟩ :=
    h (fun s _ => .ok s) _ _ ⟨.unique, 0, 4⟩ _ _ rfl hfits hread heval
  obtain ⟨-, r', hstores', hiff⟩ := @eval_iff (fun s _ => .ok s) _ _ _ _ _ hread hfits rfl heval
  obtain rfl := hstores.unique (by decide) hstores'
  refine hiff.mp hjust ⟨rfl, _, _, rfl, rfl, by decide, by decide, 0x80, by decide, by decide⟩

end Sound

end ByteEval
