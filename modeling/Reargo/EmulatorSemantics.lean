import Mathlib.Data.Nat.Size
import Reargo.EmulatorOps
import Reargo.WidthArithmetic

/-!
# Bit-vector meaning of the integer operations

The interpreter computes every operand width in 64-bit words. Here each integer
and boolean operation gets its meaning as arithmetic on bit vectors of the
operand's own width, independent of the interpreter, and one execution step is
compared with it: the output's bytes and every other byte of the state.
-/
namespace EmulatorSemantics

open PcodeModel LittleEndian EmulatorMemory EmulatorOps WidthArithmetic List
open BitVec hiding and_self ofBool or_self

abbrev Operand := (w : ℕ) × BitVec w

def value (s : EmulatorState) (vn : VarnodeData) : BitVec (8 * vn.size) :=
  if vn.space = .const then vn.offset.setWidth (8 * vn.size)
  else BitVec.ofNat (8 * vn.size) (leNat (loadBytes (s.bytes vn.space) vn.offset vn.size))

def operand (s : EmulatorState) (vn : VarnodeData) : Operand := ⟨8 * vn.size, value s vn⟩

def bit (n : ℕ) (b : Bool) : BitVec n := if b then 1 else 0

/-- The meaning of an operation of one operand, at an output of `n` bits. -/
def unaryResult (opcode : OpCode) (n : ℕ) {w : ℕ} (x : BitVec w) : BitVec n :=
  match opcode with
  | .copy | .intZExt => x.setWidth n
  | .intSExt => x.signExtend n
  | .intNegate => (~~~x).setWidth n
  | .int2Comp => (-x).setWidth n
  | .popCount => BitVec.ofNat n (countOnes x)
  | .lzCount => BitVec.ofNat n (leadingZeros x)
  | .boolNegate => bit n (x = 0)
  | _ => 0

/-- The meaning of an operation of two operands of width `w`. -/
def sameWidthResult (opcode : OpCode) (n : ℕ) {w : ℕ} (x y : BitVec w) : BitVec n :=
  match opcode with
  | .intAdd => (x + y).setWidth n
  | .intSub => (x - y).setWidth n
  | .intMult => (x * y).setWidth n
  | .intAnd => (x &&& y).setWidth n
  | .intOr => (x ||| y).setWidth n
  | .intXor => (x ^^^ y).setWidth n
  | .intDiv => if y = 0 then 0 else BitVec.ofNat n (x.toNat / y.toNat)
  | .intRem => if y = 0 then 0 else BitVec.ofNat n (x.toNat % y.toNat)
  -- truncated toward zero, modulo the width
  | .intSDiv => if y = 0 then 0 else BitVec.ofInt n (x.toInt.tdiv y.toInt)
  | .intSRem => if y = 0 then 0 else BitVec.ofInt n (x.toInt.tmod y.toInt)
  | .intEqual => bit n (x = y)
  | .intNotEqual => bit n (x ≠ y)
  | .intLess => bit n (x.toNat < y.toNat)
  | .intLessEqual => bit n (x.toNat ≤ y.toNat)
  | .intSLess => bit n (x.toInt < y.toInt)
  | .intSLessEqual => bit n (x.toInt ≤ y.toInt)
  | .intCarry => bit n (2 ^ w ≤ x.toNat + y.toNat)
  | .intSCarry => bit n (x.toInt + y.toInt ≠ (x + y).toInt)
  | .intSBorrow => bit n (x.toInt - y.toInt ≠ (x - y).toInt)
  | _ => 0

/-- The meaning of an operation of two operands of any widths. -/
def binaryResult (opcode : OpCode) (n : ℕ) {w u : ℕ} (x : BitVec w) (y : BitVec u) : BitVec n :=
  match opcode with
  | .intLeft => (x <<< y.toNat).setWidth n
  | .intRight => (x >>> y.toNat).setWidth n
  | .intSRight => (x.sshiftRight y.toNat).setWidth n
  | .boolAnd => bit n (x ≠ 0 ∧ y ≠ 0)
  | .boolOr => bit n (x ≠ 0 ∨ y ≠ 0)
  | .boolXor => bit n (decide (x ≠ 0) ^^ decide (y ≠ 0))
  | .piece => (x ++ y).setWidth n
  | .subpiece => (x >>> (8 * y.toNat)).setWidth n
  | _ => sameWidthResult opcode n x (y.setWidth w)

def bitResult (opcode : OpCode) (n : ℕ) : List Operand → BitVec n
  | [x] => unaryResult opcode n x.2
  | [x, y] => binaryResult opcode n x.2 y.2
  | [c, x, y] => if c.2 ≠ 0 then x.2.setWidth n else y.2.setWidth n
  | _ => 0

/-- The operand sizes an operation of the integer set requires for an output size. -/
def SizesFit (opcode : OpCode) (out : ℕ) : List ℕ → Prop
  | [a] => match opcode with
    | .copy | .intNegate | .int2Comp => a = out
    | .intZExt | .intSExt => a ≤ out
    | .popCount | .lzCount | .boolNegate => True
    | _ => False
  | [a, b] => match opcode with
    | .intAdd | .intSub | .intMult | .intAnd | .intOr | .intXor
    | .intDiv | .intSDiv | .intRem | .intSRem => a = out ∧ b = out
    | .intLeft | .intRight | .intSRight => a = out
    | .intEqual | .intNotEqual | .intLess | .intLessEqual | .intSLess | .intSLessEqual
    | .intCarry | .intSCarry | .intSBorrow => a = b
    | .boolAnd | .boolOr | .boolXor => True
    | .piece => a + b = out
    | .subpiece => out ≤ a
    | _ => False
  | [_, b, c] => match opcode with
    | .select => b = out ∧ c = out
    | _ => False
  | _ => False

def WordSize (n : ℕ) : Prop := n = 1 ∨ n = 2 ∨ n = 4 ∨ n = 8

/-- A constant operand lies within its size. -/
def ConstFits (vn : VarnodeData) : Prop :=
  vn.space = .const → vn.offset.toNat < 2 ^ (8 * vn.size)

variable {n : ℕ} {out : VarnodeData} {w : ℕ}

theorem WordSize.le (h : WordSize n) : n ≤ 8 := by
  unfold WordSize at h; omega

theorem WordSize.pos (h : WordSize n) : 0 < n := by
  unfold WordSize at h; omega

theorem pow_256 (n : ℕ) : 256 ^ n = 2 ^ (8 * n) := by
  rw [pow_mul]
  rfl

theorem readVarnode_eq_value (s : EmulatorState) {vn : VarnodeData} (hn : vn.size ≤ 8)
    (hc : ConstFits vn) : s.readVarnode vn = (value s vn).setWidth 64 := by
  unfold value
  split
  · next h =>
    rw [EmulatorState.readVarnode, PageAccess.readVarnode, if_pos h]
    apply eq_of_toNat_eq
    rw [ext_toNat (by omega), toNat_setWidth, Nat.mod_eq_of_lt (hc h)]
  · next h =>
    have hlt := leNat_lt (loadBytes (s.bytes vn.space) vn.offset vn.size)
    rw [length_loadBytes, pow_256] at hlt
    rw [EmulatorState.readVarnode, PageAccess.readVarnode_eq h, min_eq_left hn]
    apply eq_of_toNat_eq
    rw [ext_toNat (by omega), fromLeBytes, toNat_ofNat, toNat_ofNat,
      Nat.mod_eq_of_lt (a := leNat _) hlt]
    exact Nat.mod_eq_of_lt (lt_of_lt_of_le hlt (pow_le_pow_right₀ (by decide) (by omega)))

theorem readWide_eq_value (s : EmulatorState) {vn : VarnodeData} (hn : vn.size ≤ 8)
    (hc : ConstFits vn) : s.readWide vn = (value s vn).setWidth 128 := by
  have h := readVarnode_eq_value s hn hc
  unfold EmulatorState.readVarnode at h
  rw [EmulatorState.readWide, PageAccess.readWide, if_pos (.inl hn), h]
  apply eq_of_toNat_eq
  rw [ext_toNat (by decide), ext_toNat (by omega), ext_toNat (by omega)]

theorem toLeBytes_cut (n : ℕ) (v : BitVec w) :
    toLeBytes n (v.setWidth (8 * n)) = toLeBytes n v := by
  apply toLeBytes_congr
  rw [toNat_setWidth, pow_256, Nat.mod_mod]

/-- The step succeeds and stores `r` at the output, and nothing else changes. -/
def Stores (s : EmulatorState) (res : Result) (out : VarnodeData) (r : BitVec (8 * out.size)) :
    Prop :=
  ∃ s', res = .ok s' ∧
    s'.bytes = PageAccess.stored s.bytes out.space out.offset (toLeBytes out.size r)

theorem stores_writeVarnode (s : EmulatorState) (hn : out.size ≤ 8) {v : U64}
    {r : BitVec (8 * out.size)} (h : v.setWidth (8 * out.size) = r) :
    Stores s (.ok (s.writeVarnode out v)) out r := by
  refine ⟨_, rfl, ?_⟩
  rw [EmulatorState.bytes_writeVarnode, min_eq_left hn, ← h, toLeBytes_cut]

theorem stores_writeWide (s : EmulatorState) (hn : out.size ≤ 16) {v : U128}
    {r : BitVec (8 * out.size)} (h : v.setWidth (8 * out.size) = r) :
    Stores s (.ok (s.writeWide out v)) out r := by
  refine ⟨_, rfl, ?_⟩
  rw [EmulatorState.bytes_writeWide, min_eq_left hn, ← h, toLeBytes_cut]

theorem Stores.unique {s : EmulatorState} {res : Result} {r r' : BitVec (8 * out.size)}
    (hn : out.size ≤ 16) (h : Stores s res out r) (h' : Stores s res out r') : r = r' := by
  obtain ⟨s₁, rfl, h₁⟩ := h
  obtain ⟨s₂, he, h₂⟩ := h'
  cases he
  rw [h₁] at h₂
  have hsp := congrFun h₂ out.space
  simp only [PageAccess.stored, Function.update_self] at hsp
  have hlen : out.size ≤ 2 ^ 64 := by omega
  have hbytes : toLeBytes out.size r = toLeBytes out.size r' := by
    apply ext_getElem (by simp)
    intro i hi hi'
    have hi₀ : i < out.size := by simpa using hi
    have hx : (out.offset + BitVec.ofNat 64 i - out.offset).toNat = i := by
      rw [show out.offset + BitVec.ofNat 64 i - out.offset = BitVec.ofNat 64 i by ring,
        toNat_ofNat, Nat.mod_eq_of_lt (by omega)]
    have := congrFun hsp (out.offset + BitVec.ofNat 64 i)
    rw [storeBytes_apply _ _ _ _ (by simpa using hlen),
      storeBytes_apply _ _ _ _ (by simpa using hlen), hx, List.getElem?_eq_getElem hi,
      List.getElem?_eq_getElem hi'] at this
    simpa using this
  have hnat := congrArg leNat hbytes
  rw [leNat_toLeBytes, leNat_toLeBytes, pow_256, Nat.mod_eq_of_lt r.isLt,
    Nat.mod_eq_of_lt r'.isLt] at hnat
  exact eq_of_toNat_eq hnat

theorem ofBool_cut (b : Bool) : (ofBool b).setWidth n = bit n b := by
  cases b
  · simp [ofBool, bit]
  · apply eq_of_toNat_eq
    simp [ofBool, bit]

theorem countOnes_ext {v : ℕ} (h : w ≤ v) (x : BitVec w) :
    countOnes (x.setWidth v) = countOnes x := by
  obtain ⟨k, rfl⟩ := Nat.exists_eq_add_of_le h
  unfold countOnes
  have hlow : (range w).filter (fun i => (x.setWidth (w + k)).getLsbD i) =
      (range w).filter fun i => x.getLsbD i := by
    apply filter_congr
    intro i hi
    have := mem_range.mp hi
    simp [show i < w + k by omega]
  have hhigh : ((range k).map (w + ·)).filter (fun i => (x.setWidth (w + k)).getLsbD i) = [] := by
    apply filter_eq_nil_iff.mpr
    intro i hi
    obtain ⟨j, -, rfl⟩ := mem_map.mp hi
    simp [getLsbD_setWidth]
  rw [range_add, filter_append, hlow, hhigh, append_nil]

theorem lzCount_ext (hn : n ≤ 8) (x : BitVec (8 * n)) :
    lzCount n (x.setWidth 64) = leadingZeros x := by
  have hx := x.isLt
  unfold lzCount leadingZeros
  simp only
  split
  · rw [ext_toNat (by omega)]
    omega
  · have hshift : (x.setWidth 64 <<< (64 - n * 8)).toNat = x.toNat <<< (64 - n * 8) := by
      rw [toNat_shiftLeft, ext_toNat (by omega), Nat.shiftLeft_eq]
      apply Nat.mod_eq_of_lt
      calc x.toNat * 2 ^ (64 - n * 8)
          < 2 ^ (8 * n) * 2 ^ (64 - n * 8) := Nat.mul_lt_mul_of_pos_right hx (by positivity)
        _ = 2 ^ 64 := by rw [← pow_add]; congr 1; omega
    rw [hshift]
    rcases Nat.eq_zero_or_pos x.toNat with h0 | h0
    · simp [h0]
      omega
    · rw [Nat.size_shiftLeft (by omega)]
      omega

theorem signExtendFrom_ext (hn : n ≤ 8) (x : BitVec (8 * n)) :
    signExtendFrom (n * 8) (x.setWidth 64) = x.signExtend 64 := by
  rcases Nat.eq_zero_or_pos n with rfl | hpos
  · rw [eq_nil x]
    rfl
  rw [signExtendFrom, Nat.mod_eq_of_lt (by omega), mul_comm n 8]
  exact sshiftRight_shiftLeft_ext (by omega) x

theorem count_lt_64 {n b : ℕ} (hn : n ≤ 8) (hb : ¬ b ≥ n * 8) : b % 2 ^ 32 % 64 = b := by
  omega

theorem intLeft_cut {n u : ℕ} (hn : n ≤ 8) (hu : u ≤ 64) (x : BitVec (8 * n)) (y : BitVec u) :
    (intLeft n (x.setWidth 64) (y.setWidth 64)).setWidth (8 * n) = x <<< y.toNat := by
  have hy := ext_toNat hu y
  unfold intLeft wrappingShl
  rw [hy]
  split
  · rw [shiftLeft_eq_zero (by omega)]
    simp
  · next h => rw [count_lt_64 hn h, cut_shiftLeft (by omega)]

theorem intRight_cut {n u : ℕ} (hn : n ≤ 8) (hu : u ≤ 64) (x : BitVec (8 * n)) (y : BitVec u) :
    (intRight n (x.setWidth 64) (y.setWidth 64)).setWidth (8 * n) = x >>> y.toNat := by
  have hy := ext_toNat hu y
  unfold intRight wrappingShr
  rw [hy]
  split
  · rw [ushiftRight_eq_zero (by omega)]
    simp
  · next h => rw [count_lt_64 hn h, cut_ushiftRight (by omega)]

theorem signBit_iff (hn : n ≤ 8) (x : BitVec (8 * n)) :
    (x.setWidth 64 >>> (n * 8 - 1)) &&& 1 = 1 ↔ x.msb = true := by
  rw [msb_eq_getLsbD_last, show 8 * n - 1 = n * 8 - 1 by omega, ← testBit_toNat,
    ← toNat_inj, toNat_and, toNat_ushiftRight, ext_toNat (by omega),
    Nat.testBit, show (1 : BitVec 64).toNat = 1 from rfl, Nat.and_comm]
  have := Nat.one_and_eq_mod_two (x.toNat >>> (n * 8 - 1))
  simp only [bne_iff_ne]
  omega

theorem intSRight_cut {n u : ℕ} (hn : n ≤ 8) (h0 : 0 < n) (hu : u ≤ 64) (x : BitVec (8 * n))
    (y : BitVec u) :
    (intSRight n (x.setWidth 64) (y.setWidth 64)).setWidth (8 * n) = x.sshiftRight y.toNat := by
  have hy := ext_toNat hu y
  have last : (n * 8 + 63) % 64 = n * 8 - 1 := by omega
  unfold intSRight
  simp only [hy, last]
  split
  · next h =>
    rw [sshiftRight_of_le (by omega)]
    have hmsb := signBit_iff hn x
    by_cases hm : x.msb = true
    · rw [if_pos (hmsb.mpr hm), if_pos hm]
      interval_cases n <;> decide
    · rw [if_neg (fun e => hm (hmsb.mp e)), if_neg hm]
      simp
  · next h =>
    rw [count_lt_64 hn h, signExtendFrom_ext hn, cut_sshiftRight (by omega)]

theorem toNat_and_mask (hn : n ≤ 8) (z : U64) :
    (z &&& if n ≥ 8 then BitVec.allOnes 64 else ((1 : U64) <<< (n * 8)) - 1).toNat =
      z.toNat % 2 ^ (8 * n) := by
  split
  · obtain rfl : n = 8 := by omega
    rw [and_allOnes, Nat.mod_eq_of_lt z.isLt]
  · have hm : ((1 : U64) <<< (n * 8) - 1).toNat = 2 ^ (n * 8) - 1 := by
      interval_cases n <;> first | omega | decide
    rw [toNat_and, hm, Nat.and_two_pow_sub_one_eq_mod, mul_comm n 8]

theorem and_mask (hn : n ≤ 8) (x : BitVec (8 * n)) :
    (x.setWidth 64 &&& if n ≥ 8 then BitVec.allOnes 64 else ((1 : U64) <<< (n * 8)) - 1) =
      x.setWidth 64 := by
  apply eq_of_toNat_eq
  rw [toNat_and_mask hn, ext_toNat (by omega), Nat.mod_eq_of_lt x.isLt]

theorem intCarry_cut {n m : ℕ} (hn : n ≤ 8) (x y : BitVec (8 * n)) :
    (intCarry n (x.setWidth 64) (y.setWidth 64)).setWidth m =
      bit m (2 ^ (8 * n) ≤ x.toNat + y.toNat) := by
  have hsum : ((x.setWidth 64 + y.setWidth 64) &&&
      if n ≥ 8 then BitVec.allOnes 64 else ((1 : U64) <<< (n * 8)) - 1) = (x + y).setWidth 64 := by
    apply eq_of_toNat_eq
    rw [toNat_and_mask hn, ext_toNat (by omega), toNat_add, toNat_add,
      ext_toNat (by omega), ext_toNat (by omega), Nat.mod_mod_of_dvd _ (pow_dvd_pow 2 (by omega))]
  have hx := x.isLt
  have hy := y.isLt
  unfold intCarry
  simp only [and_mask hn, hsum, ext_lt (show 8 * n ≤ 64 by omega), ofBool_cut]
  congr 1
  rw [decide_eq_decide, lt_def, toNat_add]
  by_cases h : 2 ^ (8 * n) ≤ x.toNat + y.toNat
  · rw [Nat.mod_eq_sub_mod h, Nat.mod_eq_of_lt (by omega)]
    omega
  · rw [Nat.mod_eq_of_lt (by omega)]
    omega

theorem signedOverflow_ext (hn : WordSize n) (f : ∀ w, BitVec w → BitVec w → Bool)
    (x y : BitVec (8 * n)) :
    signedOverflow f n (x.setWidth 64) (y.setWidth 64) = f (8 * n) x y := by
  rcases hn with rfl | rfl | rfl | rfl <;> simp [signedOverflow, setWidth_setWidth_of_le]

theorem saddOverflow_iff (x y : BitVec w) :
    x.saddOverflow y = decide (x.toInt + y.toInt ≠ (x + y).toInt) := by
  have hlt := toInt_lt (x := x + y)
  have hle := le_toInt (x + y)
  rw [Bool.eq_iff_iff, decide_eq_true_eq]
  constructor
  · intro h he
    simp only [BitVec.saddOverflow, Bool.or_eq_true, decide_eq_true_eq, he] at h
    omega
  · intro h
    by_contra hno
    exact h (toInt_add_of_not_saddOverflow hno).symm

theorem ssubOverflow_iff (x y : BitVec w) :
    x.ssubOverflow y = decide (x.toInt - y.toInt ≠ (x - y).toInt) := by
  have hlt := toInt_lt (x := x - y)
  have hle := le_toInt (x - y)
  rw [Bool.eq_iff_iff, decide_eq_true_eq]
  constructor
  · intro h he
    simp only [BitVec.ssubOverflow, Bool.or_eq_true, decide_eq_true_eq, he] at h
    omega
  · intro h
    by_contra hno
    exact h (toInt_sub_of_not_ssubOverflow hno).symm

/-- The one quotient `checked_div` refuses besides those by zero. -/
def MinByMinusOne {w : ℕ} (x y : BitVec w) : Prop := x = BitVec.intMin w ∧ y = -1

theorem signExtend_eq_min (hn : WordSize n) {x : BitVec (8 * n)}
    (he : x.signExtend 64 = BitVec.intMin 64) : n = 8 := by
  by_contra hne
  have hlt : n ≤ 4 := by unfold WordSize at hn; omega
  have h := congrArg BitVec.toInt he
  rw [toInt_signExtend_of_le (by omega)] at h
  have hx := le_toInt x
  have hpow : (2 : ℤ) ^ (8 * n - 1) ≤ 2 ^ 31 := pow_le_pow_right₀ (by decide) (by omega)
  rw [h, show (BitVec.intMin 64).toInt = -2 ^ 63 by decide] at hx
  omega

theorem operands_eq_iff (x y : BitVec (8 * n)) :
    ([⟨8 * n, x⟩, ⟨8 * n, y⟩] : List Operand) = [⟨64, BitVec.intMin 64⟩, ⟨64, -1⟩] ↔
      n = 8 ∧ MinByMinusOne x y := by
  constructor
  · intro h
    obtain ⟨h₁, h₂⟩ := List.cons.inj h
    obtain rfl : n = 8 := by
      have := congrArg Sigma.fst h₁
      simp only at this
      omega
    exact ⟨rfl, eq_of_heq (Sigma.mk.inj h₁).2, eq_of_heq (Sigma.mk.inj (List.cons.inj h₂).1).2⟩
  · rintro ⟨rfl, rfl, rfl⟩
    rfl

theorem min_by_minus_one (hn : WordSize n) {x y : BitVec (8 * n)}
    (h : x.signExtend 64 = BitVec.intMin 64 ∧ y.signExtend 64 = -1) : n = 8 ∧ MinByMinusOne x y := by
  obtain rfl := signExtend_eq_min hn h.1
  exact ⟨rfl, by simpa using h.1, by simpa using h.2⟩

theorem checkedSDiv_cut (hn : WordSize n) (x y : BitVec (8 * n)) :
    ((checkedSDiv (x.signExtend 64) (y.signExtend 64)).getD 0).setWidth (8 * n) =
      (if y = 0 then 0 else BitVec.ofInt (8 * n) (x.toInt.tdiv y.toInt)) ↔
      ¬ (n = 8 ∧ MinByMinusOne x y) := by
  have hw : 8 * n ≤ 64 := by have := hn.le; omega
  unfold checkedSDiv
  simp only [signExtend_eq_zero hw]
  by_cases hy : y = 0
  · have hne : ¬ (n = 8 ∧ MinByMinusOne x y) := by
      rintro ⟨rfl, -, h⟩
      rw [hy] at h
      exact absurd h (by decide)
    rw [iff_true_right hne]
    simp [hy]
  · by_cases hm : x.signExtend 64 = BitVec.intMin 64 ∧ y.signExtend 64 = -1
    · obtain ⟨rfl, rfl, rfl⟩ := min_by_minus_one hn hm
      simp only [MinByMinusOne, and_self, not_true_eq_false, iff_false]
      decide
    · have hne : ¬ (n = 8 ∧ MinByMinusOne x y) := by
        rintro ⟨rfl, rfl, rfl⟩
        exact hm ⟨by decide, by decide⟩
      simp only [hy, hm, or_self, if_false, Option.getD_some, cut_sdiv hw, hne, not_false_eq_true]

theorem checkedSRem_cut (hn : WordSize n) (x y : BitVec (8 * n)) :
    ((checkedSRem (x.signExtend 64) (y.signExtend 64)).getD 0).setWidth (8 * n) =
      if y = 0 then 0 else BitVec.ofInt (8 * n) (x.toInt.tmod y.toInt) := by
  have hw : 8 * n ≤ 64 := by have := hn.le; omega
  unfold checkedSRem
  simp only [signExtend_eq_zero hw]
  by_cases hy : y = 0
  · simp [hy]
  · by_cases hm : x.signExtend 64 = BitVec.intMin 64 ∧ y.signExtend 64 = -1
    · obtain ⟨rfl, rfl, rfl⟩ := min_by_minus_one hn hm
      decide
    · simp only [hy, hm, or_self, if_false, Option.getD_some, cut_srem hw]

theorem intSExtWord_ext (hn : WordSize n) (x : BitVec (8 * n)) :
    intSExtWord n (x.setWidth 64) = x.signExtend 64 := by
  rcases hn with rfl | rfl | rfl | rfl <;> simp [intSExtWord, setWidth_setWidth_of_le]

theorem signExtend_cut {m : ℕ} (hw : w ≤ 64) (hm : m ≤ 128) (x : BitVec w) :
    ((x.signExtend 64).signExtend 128).setWidth m = x.signExtend m := by
  rw [cut_eq_ofInt hm, toInt_signExtend_of_le (by decide), toInt_signExtend_of_le hw]
  rfl

theorem ext_cut {v m : ℕ} (hw : w ≤ v) (x : BitVec w) :
    (x.setWidth v).setWidth m = x.setWidth m := by
  apply eq_of_toNat_eq
  rw [toNat_setWidth, ext_toNat hw, toNat_setWidth]

theorem checkedDiv_cut {m : ℕ} (hw : w ≤ 64) (x y : BitVec w) :
    ((checkedDiv (x.setWidth 64) (y.setWidth 64)).getD 0).setWidth m =
      if y = 0 then 0 else BitVec.ofNat m (x.toNat / y.toNat) := by
  unfold checkedDiv
  simp only [ext_eq_zero hw]
  split
  · simp
  · apply eq_of_toNat_eq
    rw [Option.getD_some, toNat_setWidth, toNat_udiv, ext_toNat hw, ext_toNat hw,
      toNat_ofNat]

theorem checkedRem_cut {m : ℕ} (hw : w ≤ 64) (x y : BitVec w) :
    ((checkedRem (x.setWidth 64) (y.setWidth 64)).getD 0).setWidth m =
      if y = 0 then 0 else BitVec.ofNat m (x.toNat % y.toNat) := by
  unfold checkedRem
  simp only [ext_eq_zero hw]
  split
  · simp
  · apply eq_of_toNat_eq
    rw [Option.getD_some, toNat_setWidth, toNat_umod, ext_toNat hw, ext_toNat hw,
      toNat_ofNat]

theorem append_cut {u m v : ℕ} (h : w + u ≤ v) (x : BitVec w) (y : BitVec u) :
    ((x.setWidth v <<< u) ||| y.setWidth v).setWidth m = (x ++ y).setWidth m := by
  apply eq_of_toNat_eq
  have hlt : x.toNat <<< u < 2 ^ v := by
    rw [Nat.shiftLeft_eq]
    calc x.toNat * 2 ^ u < 2 ^ w * 2 ^ u := Nat.mul_lt_mul_of_pos_right x.isLt (by positivity)
      _ = 2 ^ (w + u) := (pow_add 2 w u).symm
      _ ≤ 2 ^ v := pow_le_pow_right₀ (by decide) h
  rw [toNat_setWidth, toNat_or, toNat_shiftLeft, ext_toNat (by omega),
    ext_toNat (by omega), toNat_setWidth, toNat_append, Nat.mod_eq_of_lt hlt]

theorem subpiece_cut {m : ℕ} (hw : w ≤ 128) (x : BitVec w) (k : ℕ) :
    (if min (k * 8) (2 ^ 64 - 1) ≥ 128 then 0
      else x.setWidth 128 >>> min (k * 8) (2 ^ 64 - 1)).setWidth m = (x >>> (8 * k)).setWidth m := by
  split
  · rw [ushiftRight_eq_zero (by omega)]
    simp
  · rw [min_eq_left (by omega), mul_comm]
    apply eq_of_toNat_eq
    rw [toNat_setWidth, toNat_ushiftRight, ext_toNat hw, toNat_setWidth,
      toNat_ushiftRight]

section Step

variable (un : Uninterpreted) (s : EmulatorState) {out x y c : VarnodeData} {oc : OpCode}
  {r : BitVec (8 * out.size)} {f : U64 → U64 → U64}

theorem stores_unary {f : U64 → U64} (hout : out.size ≤ 8) (hx : x.size ≤ 8) (hcx : ConstFits x)
    (h : (f ((value s x).setWidth 64)).setWidth (8 * out.size) = r) :
    Stores s (unary s ⟨oc, some out, [x]⟩ f) out r := by
  have hread := readVarnode_eq_value s hx hcx
  refine stores_writeVarnode s hout ?_
  rw [← h, hread]

theorem stores_binary (hout : out.size ≤ 8) (hx : x.size ≤ 8) (hy : y.size ≤ 8) (hcx : ConstFits x)
    (hcy : ConstFits y)
    (h : (f ((value s x).setWidth 64) ((value s y).setWidth 64)).setWidth (8 * out.size) = r) :
    Stores s (binary s ⟨oc, some out, [x, y]⟩ f) out r := by
  have hread := readVarnode_eq_value s hx hcx
  have hread' := readVarnode_eq_value s hy hcy
  refine stores_writeVarnode s hout ?_
  rw [← h, hread, hread']

theorem bitwise_eq_binary (hout : out.size ≤ 8) (f : ∀ w, BitVec w → BitVec w → BitVec w) :
    bitwise s ⟨oc, some out, [x, y]⟩ f = binary s ⟨oc, some out, [x, y]⟩ (f 64) := by
  have heq : bitwise s ⟨oc, some out, [x, y]⟩ f =
      if out.size > 8 then .ok (s.writeWide out (f 128 (s.readWide x) (s.readWide y)))
      else binary s ⟨oc, some out, [x, y]⟩ (f 64) := rfl
  rw [heq, if_neg (by omega)]

/-- The operations of one operand. -/
theorem stores_one (hfit : SizesFit oc out.size [x.size]) (hout : WordSize out.size)
    (hx : WordSize x.size) (hcx : ConstFits x) :
    Stores s (execute un s ⟨oc, some out, [x]⟩) out (unaryResult oc (8 * out.size) (value s x)) := by
  have ho8 := hout.le
  have hx8 := hx.le
  have hsize : firstSize ⟨oc, some out, [x]⟩ = x.size := min_eq_left hx8
  have hread := readVarnode_eq_value s hx8 hcx
  have hw : 8 * x.size ≤ 64 := by omega
  cases oc with
  | copy =>
    have heq : execute un s ⟨.copy, some out, [x]⟩ =
        if out.size > 8 then .ok (s.writeWide out (s.readWide x))
        else .ok (s.writeVarnode out (s.readVarnode x)) := rfl
    rw [heq, if_neg (by omega), hread]
    exact stores_writeVarnode s ho8 (ext_cut hw _)
  | intNegate =>
    have heq : execute un s ⟨.intNegate, some out, [x]⟩ =
        if out.size > 8 then .ok (s.writeWide out (~~~ s.readWide x))
        else .ok (s.writeVarnode out (~~~ s.readVarnode x)) := rfl
    rw [heq, if_neg (by omega), hread]
    refine stores_writeVarnode s ho8 ?_
    rw [show out.size = x.size from hfit.symm, cut_not hw]
    exact (setWidth_eq _).symm
  | int2Comp =>
    refine stores_unary s ho8 hx8 hcx ?_
    rw [show out.size = x.size from hfit.symm, cut_neg hw]
    exact (setWidth_eq _).symm
  | intZExt =>
    have heq : execute un s ⟨.intZExt, some out, [x]⟩ =
        .ok (s.writeWide out ((s.readVarnode x).setWidth 128)) := rfl
    rw [heq, hread]
    exact stores_writeWide s (by omega) (by rw [ext_cut (by decide), ext_cut hw]; rfl)
  | intSExt =>
    have heq : execute un s ⟨.intSExt, some out, [x]⟩ =
        .ok (s.writeWide out ((intSExtWord x.size (s.readVarnode x)).signExtend 128)) := rfl
    rw [heq, hread, intSExtWord_ext hx]
    exact stores_writeWide s (by omega) (signExtend_cut hw (by omega) _)
  | popCount =>
    refine stores_unary s ho8 hx8 hcx ?_
    rw [countOnes_ext hw, setWidth_ofNat_of_le (by omega)]
    rfl
  | lzCount =>
    refine stores_unary s ho8 hx8 hcx ?_
    rw [hsize, lzCount_ext hx8, setWidth_ofNat_of_le (by omega)]
    rfl
  | boolNegate =>
    refine stores_unary s ho8 hx8 hcx ?_
    simp only [ofBool_cut, ext_eq_zero hw]
    rfl
  | _ => exact absurd hfit id

/-- Which quotient the interpreter gets wrong: the 64-bit minimum by minus one. -/
def RefusedQuotient (op : PcodeOp) : Prop :=
  op.opcode = .intSDiv ∧ op.inputs.map (operand s) = [⟨64, BitVec.intMin 64⟩, ⟨64, -1⟩]

theorem stores_same (hout : out.size ≤ 8) (hx : x.size ≤ 8) (hy : y.size = x.size)
    (hcx : ConstFits x) (hcy : ConstFits y)
    (h : ∀ a b : BitVec (8 * x.size), (f (a.setWidth 64) (b.setWidth 64)).setWidth (8 * out.size) =
    sameWidthResult oc (8 * out.size) a b) :
    Stores s (binary s ⟨oc, some out, [x, y]⟩ f) out
      (sameWidthResult oc (8 * out.size) (value s x) ((value s y).setWidth (8 * x.size))) := by
  refine stores_binary s hout hx (by omega) hcx hcy ?_
  obtain ⟨sx, ox, n⟩ := x
  obtain ⟨sy, oy, m⟩ := y
  obtain rfl : m = n := hy
  rw [h]
  simp

/-- A ring or bitwise operation, whose output has the operands' size. -/
theorem cut_same {n m : ℕ} (h : n = m) {u : U64} {r : BitVec (8 * n)} (hu : u.setWidth (8 * n) = r) :
    u.setWidth (8 * m) = r.setWidth (8 * m) := by
  subst h
  rw [hu, setWidth_eq]

theorem stores_two (hne : oc ≠ .intSDiv)
    (hfit : SizesFit oc out.size [x.size, y.size]) (hout : WordSize out.size)
    (hx : WordSize x.size) (hy : WordSize y.size) (hcx : ConstFits x) (hcy : ConstFits y) :
    Stores s (execute un s ⟨oc, some out, [x, y]⟩) out
      (binaryResult oc (8 * out.size) (value s x) (value s y)) := by
  have ho8 := hout.le
  have hx8 := hx.le
  have hy8 := hy.le
  have hsize : firstSize ⟨oc, some out, [x, y]⟩ = x.size := min_eq_left hx8
  have hwx : 8 * x.size ≤ 64 := by omega
  have hwy : 8 * y.size ≤ 64 := by omega
  have two {f : U64 → U64 → U64} {r : BitVec (8 * out.size)} :
      (f ((value s x).setWidth 64) ((value s y).setWidth 64)).setWidth (8 * out.size) = r →
        Stores s (binary s ⟨oc, some out, [x, y]⟩ f) out r := stores_binary s ho8 hx8 hy8 hcx hcy
  have same (hyx : y.size = x.size) {f : U64 → U64 → U64} :
      (∀ a b : BitVec (8 * x.size), (f (a.setWidth 64) (b.setWidth 64)).setWidth (8 * out.size) =
        sameWidthResult oc (8 * out.size) a b) → Stores s (binary s ⟨oc, some out, [x, y]⟩ f) out
          (sameWidthResult oc (8 * out.size) (value s x) ((value s y).setWidth (8 * x.size))) :=
    stores_same s ho8 hx8 hyx hcx hcy
  cases oc with
  | intAdd =>
    obtain ⟨hxo, hyo⟩ := hfit
    exact same (by omega) fun a b => cut_same hxo (cut_add hwx a b)
  | intSub =>
    obtain ⟨hxo, hyo⟩ := hfit
    exact same (by omega) fun a b => cut_same hxo (cut_sub hwx a b)
  | intMult =>
    obtain ⟨hxo, hyo⟩ := hfit
    have heq : execute un s ⟨.intMult, some out, [x, y]⟩ =
        if out.size > 8 then .ok (s.writeWide out (s.readWide x * s.readWide y))
        else binary s ⟨.intMult, some out, [x, y]⟩ (fun a b => a * b) := rfl
    rw [heq, if_neg (by omega)]
    exact same (by omega) fun a b => cut_same hxo (cut_mul hwx a b)
  | intAnd =>
    obtain ⟨hxo, hyo⟩ := hfit
    rw [show execute un s ⟨.intAnd, some out, [x, y]⟩ = _ from
      bitwise_eq_binary s ho8 fun _ a b => a &&& b]
    exact same (by omega)
      fun a b => cut_same hxo (by rw [setWidth_and, cut_ext hwx, cut_ext hwx])
  | intOr =>
    obtain ⟨hxo, hyo⟩ := hfit
    rw [show execute un s ⟨.intOr, some out, [x, y]⟩ = _ from
      bitwise_eq_binary s ho8 fun _ a b => a ||| b]
    exact same (by omega)
      fun a b => cut_same hxo (by rw [setWidth_or, cut_ext hwx, cut_ext hwx])
  | intXor =>
    obtain ⟨hxo, hyo⟩ := hfit
    rw [show execute un s ⟨.intXor, some out, [x, y]⟩ = _ from
      bitwise_eq_binary s ho8 fun _ a b => a ^^^ b]
    exact same (by omega)
      fun a b => cut_same hxo (by rw [setWidth_xor, cut_ext hwx, cut_ext hwx])
  | intDiv =>
    obtain ⟨hxo, hyo⟩ := hfit
    exact same (by omega) fun a b => checkedDiv_cut hwx a b
  | intRem =>
    obtain ⟨hxo, hyo⟩ := hfit
    exact same (by omega) fun a b => checkedRem_cut hwx a b
  | intSRem =>
    obtain ⟨hxo, hyo⟩ := hfit
    refine same (by omega) fun a b => ?_
    rw [hsize, signExtendFrom_ext hx8, signExtendFrom_ext hx8, ← hxo]
    exact checkedSRem_cut hx a b
  | intLeft =>
    have hxo : x.size = out.size := hfit
    refine two ?_
    rw [hsize]
    exact cut_same hxo (intLeft_cut hx8 hwy _ _)
  | intRight =>
    have hxo : x.size = out.size := hfit
    refine two ?_
    rw [hsize]
    exact cut_same hxo (intRight_cut hx8 hwy _ _)
  | intSRight =>
    have hxo : x.size = out.size := hfit
    refine two ?_
    rw [hsize]
    exact cut_same hxo (intSRight_cut hx8 hx.pos hwy _ _)
  | intEqual | intNotEqual =>
    refine same hfit.symm fun a b => ?_
    simp only [ofBool_cut, ne_eq, ext_inj hwx]
    rfl
  | intLess | intLessEqual =>
    refine same hfit.symm fun a b => ?_
    simp only [ofBool_cut, ext_lt hwx, ext_le hwx]
    rfl
  | intSLess =>
    refine same hfit.symm fun a b => ?_
    rw [ofBool_cut, hsize, signExtendFrom_ext hx8, signExtendFrom_ext hx8,
      slt_signExtend hwx, slt_eq_decide]
    rfl
  | intSLessEqual =>
    refine same hfit.symm fun a b => ?_
    rw [ofBool_cut, hsize, signExtendFrom_ext hx8, signExtendFrom_ext hx8,
      sle_signExtend hwx, sle_eq_decide]
    rfl
  | intCarry =>
    refine same hfit.symm fun a b => ?_
    exact intCarry_cut hx8 a b
  | intSCarry =>
    refine same hfit.symm fun a b => ?_
    rw [ofBool_cut]
    show bit _ (signedOverflow @BitVec.saddOverflow x.size _ _) = _
    rw [signedOverflow_ext hx, saddOverflow_iff]
    rfl
  | intSBorrow =>
    refine same hfit.symm fun a b => ?_
    rw [ofBool_cut]
    show bit _ (signedOverflow @BitVec.ssubOverflow x.size _ _) = _
    rw [signedOverflow_ext hx, ssubOverflow_iff]
    rfl
  | boolAnd | boolOr | boolXor =>
    refine two ?_
    simp only [ofBool_cut, ne_eq, ext_eq_zero hwx, ext_eq_zero hwy]
    rfl
  | piece =>
    have hsum : x.size + y.size = out.size := hfit
    have hx0 := hx.pos
    have heq : execute un s ⟨.piece, some out, [x, y]⟩ = if out.size > 8 ∧ y.size < 16 then
          .ok (s.writeWide out (s.readWide x <<< (y.size * 8) ||| s.readWide y))
        else .ok (s.writeVarnode out (if y.size * 8 % 2 ^ 32 ≥ 64 then s.readVarnode y
          else (s.readVarnode x <<< (y.size * 8 % 2 ^ 32)) ||| s.readVarnode y)) := rfl
    rw [heq, Nat.mod_eq_of_lt (by omega), if_neg (by omega), if_neg (by omega),
      readVarnode_eq_value s hx8 hcx, readVarnode_eq_value s hy8 hcy, mul_comm y.size 8]
    exact stores_writeVarnode s ho8 (append_cut (by omega) _ _)
  | subpiece =>
    have heq : execute un s ⟨.subpiece, some out, [x, y]⟩ =
        .ok (s.writeWide out (if min ((s.readVarnode y).toNat * 8) (2 ^ 64 - 1) ≥ 128 then 0
          else s.readWide x >>> min ((s.readVarnode y).toNat * 8) (2 ^ 64 - 1))) := rfl
    rw [heq, readWide_eq_value s hx8 hcx, readVarnode_eq_value s hy8 hcy, ext_toNat hwy]
    exact stores_writeWide s (by omega) (subpiece_cut (by omega) _ _)
  | intSDiv => exact absurd rfl hne
  | _ => exact absurd hfit id

theorem stores_select (hfit : SizesFit .select out.size [c.size, x.size, y.size])
    (hout : WordSize out.size) (hc : WordSize c.size) (hcc : ConstFits c) (hcx : ConstFits x)
    (hcy : ConstFits y) :
    Stores s (execute un s ⟨.select, some out, [c, x, y]⟩) out
      (bitResult .select (8 * out.size) ([c, x, y].map (operand s))) := by
  obtain ⟨hxo, hyo⟩ := hfit
  have ho8 := hout.le
  have hwide : ∀ vn : VarnodeData, vn.size = out.size → ConstFits vn →
      Stores s (.ok (s.writeWide out (s.readWide vn))) out ((value s vn).setWidth (8 * out.size)) := by
    intro vn hn hcn
    rw [readWide_eq_value s (by omega) hcn]
    exact stores_writeWide s (by omega) (ext_cut (by omega) _)
  have heq : execute un s ⟨.select, some out, [c, x, y]⟩ =
      (needInput ⟨.select, some out, [c, x, y]⟩ (if s.readVarnode c ≠ 0 then 1 else 2)).bind
        fun pick => .ok (s.writeWide out (s.readWide pick)) := rfl
  have hcond : s.readVarnode c ≠ 0 ↔ value s c ≠ 0 := by
    rw [readVarnode_eq_value s hc.le hcc, ne_eq, ext_eq_zero (by have := hc.le; omega)]
  simp only [bitResult, List.map, operand]
  by_cases h : value s c = 0
  · rw [heq, if_neg (fun hne => hcond.mp hne h), if_neg (fun hne => hne h)]
    exact hwide y hyo hcy
  · rw [heq, if_pos (hcond.mpr h), if_pos h]
    exact hwide x hxo hcx

theorem stores_sdiv_iff (hfit : SizesFit .intSDiv out.size [x.size, y.size])
    (hout : WordSize out.size) (hcx : ConstFits x) (hcy : ConstFits y) :
    Stores s (execute un s ⟨.intSDiv, some out, [x, y]⟩) out
        (binaryResult .intSDiv (8 * out.size) (value s x) (value s y)) ↔
      ¬ RefusedQuotient s ⟨.intSDiv, some out, [x, y]⟩ := by
  have ho8 := hout.le
  obtain ⟨sx, ox, n⟩ := x
  obtain ⟨sy, oy, m⟩ := y
  obtain ⟨so, oo, k⟩ := out
  obtain ⟨rfl, rfl⟩ : n = k ∧ m = k := hfit
  have hsize : min m 8 = m := min_eq_left ho8
  have hexec : execute un s ⟨.intSDiv, some ⟨so, oo, m⟩, [⟨sx, ox, m⟩, ⟨sy, oy, m⟩]⟩ =
      binary s ⟨.intSDiv, some ⟨so, oo, m⟩, [⟨sx, ox, m⟩, ⟨sy, oy, m⟩]⟩ fun a b =>
        (checkedSDiv (signExtendFrom (min m 8 * 8) a) (signExtendFrom (min m 8 * 8) b)).getD 0 := rfl
  have hstore : Stores s (binary s ⟨.intSDiv, some ⟨so, oo, m⟩, [⟨sx, ox, m⟩, ⟨sy, oy, m⟩]⟩ fun a b =>
      (checkedSDiv (signExtendFrom (m * 8) a) (signExtendFrom (m * 8) b)).getD 0) ⟨so, oo, m⟩ _ :=
    stores_binary s ho8 ho8 ho8 hcx hcy rfl
  have hcut := checkedSDiv_cut hout (value s ⟨sx, ox, m⟩) (value s ⟨sy, oy, m⟩)
  simp only [signExtendFrom_ext ho8] at hstore
  have hres : binaryResult .intSDiv (8 * m) (value s ⟨sx, ox, m⟩) (value s ⟨sy, oy, m⟩) =
      if value s ⟨sy, oy, m⟩ = 0 then 0
      else BitVec.ofInt (8 * m) ((value s ⟨sx, ox, m⟩).toInt.tdiv (value s ⟨sy, oy, m⟩).toInt) := by
    simp [binaryResult, sameWidthResult]
  rw [hexec, hsize, hres]
  have hrefused : RefusedQuotient s ⟨.intSDiv, some ⟨so, oo, m⟩, [⟨sx, ox, m⟩, ⟨sy, oy, m⟩]⟩ ↔
      m = 8 ∧ MinByMinusOne (value s ⟨sx, ox, m⟩) (value s ⟨sy, oy, m⟩) :=
    (and_iff_right rfl).trans (operands_eq_iff _ _)
  rw [hrefused, ← hcut]
  constructor
  · exact fun h => hstore.unique (by omega) h
  · exact fun h => h ▸ hstore

end Step

/-- What the step of an operation promises: the result at the output, nothing else. -/
def WritesResult (un : Uninterpreted) (em : Emulator) (op : PcodeOp) (out : VarnodeData) : Prop :=
  (em.executeOp un op).2 = .ok () ∧ (em.executeOp un op).1.state.bytes =
      PageAccess.stored em.state.bytes out.space out.offset
        (toLeBytes out.size (bitResult op.opcode (8 * out.size) (op.inputs.map (operand em.state))))

theorem writesResult_iff_stores (un : Uninterpreted) (em : Emulator) (op : PcodeOp)
    (out : VarnodeData) :
    WritesResult un em op out ↔ Stores em.state (execute un em.state op) out
      (bitResult op.opcode (8 * out.size) (op.inputs.map (operand em.state))) := by
  unfold WritesResult Stores Emulator.executeOp
  cases execute un em.state op with
  | ok s => simp
  | error e => simp

/-- An operation of the integer set on operands of one, two, four or eight bytes writes its
bit-vector result and nothing else, except the quotient of the 64-bit minimum by minus one. -/
theorem executeOp_writes_bit_vector_result (un : Uninterpreted) (em : Emulator) (op : PcodeOp)
    (out : VarnodeData) (hout : op.output = some out)
    (hfit : SizesFit op.opcode out.size (op.inputs.map VarnodeData.size))
    (hosize : WordSize out.size) (hisize : ∀ vn ∈ op.inputs, WordSize vn.size)
    (hconst : ∀ vn ∈ op.inputs, ConstFits vn) :
    WritesResult un em op out ↔ ¬ RefusedQuotient em.state op := by
  rw [writesResult_iff_stores]
  obtain ⟨oc, o, ins⟩ := op
  obtain rfl : o = some out := hout
  match ins, hfit, hisize, hconst with
  | [x], hfit, hisize, hconst =>
    have hnot : ¬ RefusedQuotient em.state ⟨oc, some out, [x]⟩ := by simp [RefusedQuotient]
    exact iff_of_true (stores_one un em.state hfit hosize (hisize x (by simp)) (hconst x (by simp))) hnot
  | [x, y], hfit, hisize, hconst =>
    by_cases hoc : oc = .intSDiv
    · subst hoc
      exact stores_sdiv_iff un em.state hfit hosize (hconst x (by simp)) (hconst y (by simp))
    · exact iff_of_true (stores_two un em.state hoc hfit hosize (hisize x (by simp))
        (hisize y (by simp)) (hconst x (by simp)) (hconst y (by simp))) fun h => hoc h.1
  | [c, x, y], hfit, hisize, hconst =>
    have hnot : ¬ RefusedQuotient em.state ⟨oc, some out, [c, x, y]⟩ := by simp [RefusedQuotient]
    cases oc with
    | select =>
      exact iff_of_true (stores_select un em.state hfit hosize (hisize c (by simp))
        (hconst c (by simp)) (hconst x (by simp)) (hconst y (by simp))) hnot
    | _ => exact absurd hfit id
  | [], hfit, _, _ => exact absurd hfit id
  | _ :: _ :: _ :: _ :: _, hfit, _, _ => exact absurd hfit id

/-- The quotient of two eight-byte constants, into a temporary. -/
def quotientOf (a b : U64) : PcodeOp :=
  ⟨.intSDiv, some ⟨.unique, 0, 8⟩, [⟨.const, a, 8⟩, ⟨.const, b, 8⟩]⟩

def freshEmulator : Emulator := ⟨EmulatorState.new, 0⟩

theorem constFits_word (v : U64) : ConstFits ⟨.const, v, 8⟩ := fun _ => v.isLt

theorem executeOp_writes_negative_quotient :
    WritesResult (fun s _ => .ok s) freshEmulator (quotientOf (-7) 2) ⟨.unique, 0, 8⟩ := by
  refine (executeOp_writes_bit_vector_result _ freshEmulator (quotientOf (-7) 2)
    ⟨.unique, 0, 8⟩ rfl ⟨rfl, rfl⟩ (by simp [WordSize]) ?_ ?_).mpr ?_
  · simp [quotientOf, WordSize]
  · simp [quotientOf, constFits_word]
  · rintro ⟨-, h⟩
    have := eq_of_heq (Sigma.mk.inj (List.cons.inj h).1).2
    exact absurd this (by decide)

/-- The minimum by minus one is in the domain and its result is lost: the output is zero. -/
theorem executeOp_loses_minimum_by_minus_one :
    SizesFit (quotientOf (BitVec.intMin 64) (-1)).opcode 8
        ((quotientOf (BitVec.intMin 64) (-1)).inputs.map VarnodeData.size) ∧
      (∀ vn ∈ (quotientOf (BitVec.intMin 64) (-1)).inputs, WordSize vn.size ∧ ConstFits vn) ∧
      ¬ WritesResult (fun s _ => .ok s) freshEmulator (quotientOf (BitVec.intMin 64) (-1))
        ⟨.unique, 0, 8⟩ := by
  refine ⟨⟨rfl, rfl⟩, ?_, ?_⟩
  · simp [quotientOf, WordSize, constFits_word]
  · rw [writesResult_iff_stores]
    intro h
    have hrefused : RefusedQuotient freshEmulator.state (quotientOf (BitVec.intMin 64) (-1)) :=
      ⟨rfl, by decide⟩
    refine (stores_sdiv_iff _ _ ?_ ?_ ?_ ?_).mp h hrefused
    · exact ⟨rfl, rfl⟩
    · simp [WordSize]
    · exact constFits_word _
    · exact constFits_word _

end EmulatorSemantics
