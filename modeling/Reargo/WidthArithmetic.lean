import Mathlib.Tactic

/-!
# Narrow arithmetic in wider words

Operands of `w` bits are held zero-extended in words of `v` bits, computed on
there, and the result is cut back to `w` bits. These are the facts that make
such computations agree with the arithmetic of width `w`.
-/
namespace WidthArithmetic

open BitVec

variable {w v : ℕ}

section Ring

variable (h : w ≤ v) (x y : BitVec w)
include h

theorem cut_ext : (x.setWidth v).setWidth w = x := by
  rw [setWidth_setWidth_of_le _ h, setWidth_eq]

theorem cut_add : (x.setWidth v + y.setWidth v).setWidth w = x + y := by
  rw [setWidth_add _ _ h, cut_ext h, cut_ext h]

theorem cut_mul : (x.setWidth v * y.setWidth v).setWidth w = x * y := by
  rw [setWidth_mul _ _ h, cut_ext h, cut_ext h]

theorem cut_not : (~~~ x.setWidth v).setWidth w = ~~~x := by
  rw [setWidth_not h, cut_ext h]

theorem cut_neg : (~~~ x.setWidth v + 1).setWidth w = -x := by
  rw [setWidth_add _ _ h, cut_not h, neg_eq_not_add]
  congr 1
  apply eq_of_toNat_eq
  simp only [ofNat_eq_ofNat, toNat_setWidth, toNat_ofNat]
  exact Nat.mod_mod_of_dvd _ (pow_dvd_pow 2 h)

theorem cut_sub : (x.setWidth v - y.setWidth v).setWidth w = x - y := by
  have hneg : (-(y.setWidth v)).setWidth w = -y := by
    rw [neg_eq_not_add, ← cut_neg h y]
    rfl
  rw [sub_eq_add_neg, setWidth_add _ _ h, hneg, cut_ext h, ← sub_eq_add_neg]

theorem ext_toNat : (x.setWidth v).toNat = x.toNat := by
  rw [toNat_setWidth, Nat.mod_eq_of_lt (lt_of_lt_of_le x.isLt (pow_le_pow_right₀ (by decide) h))]

theorem ext_inj : x.setWidth v = y.setWidth v ↔ x = y := by
  constructor
  · intro e
    rw [← cut_ext h x, e, cut_ext h]
  · rintro rfl
    rfl

theorem ext_eq_zero : x.setWidth v = 0 ↔ x = 0 := by
  rw [← ext_inj h x 0, show (0 : BitVec w).setWidth v = 0 by simp]

theorem ext_lt : x.setWidth v < y.setWidth v ↔ x < y := by
  rw [lt_def, lt_def, ext_toNat h, ext_toNat h]

theorem ext_le : x.setWidth v ≤ y.setWidth v ↔ x ≤ y := by
  rw [le_def, le_def, ext_toNat h, ext_toNat h]

theorem cut_shiftLeft (n : ℕ) : (x.setWidth v <<< n).setWidth w = x <<< n := by
  ext i hi
  simp only [getElem_setWidth, getLsbD_shiftLeft, getElem_shiftLeft, getLsbD_setWidth]
  grind

theorem cut_ushiftRight (n : ℕ) : (x.setWidth v >>> n).setWidth w = x >>> n := by
  apply eq_of_toNat_eq
  have hlt : x.toNat >>> n < 2 ^ w := by
    rw [Nat.shiftRight_eq_div_pow]
    exact lt_of_le_of_lt (Nat.div_le_self _ _) x.isLt
  rw [toNat_setWidth, toNat_ushiftRight, ext_toNat h, toNat_ushiftRight, Nat.mod_eq_of_lt hlt]

end Ring

section Signed

variable (h : w ≤ v) (x y : BitVec w)
include h

theorem sshiftRight_shiftLeft_ext :
    ((x.setWidth v) <<< (v - w)).sshiftRight (v - w) = x.signExtend v := by
  ext i hi
  simp [getElem_sshiftRight, getElem_signExtend]
  grind

theorem slt_signExtend : (x.signExtend v).slt (y.signExtend v) = x.slt y := by
  rw [Bool.eq_iff_iff, slt_iff_toInt_lt, slt_iff_toInt_lt,
    toInt_signExtend_of_le h, toInt_signExtend_of_le h]

theorem sle_signExtend : (x.signExtend v).sle (y.signExtend v) = x.sle y := by
  rw [Bool.eq_iff_iff, sle_iff_toInt_le, sle_iff_toInt_le,
    toInt_signExtend_of_le h, toInt_signExtend_of_le h]

/-- Cutting a wider word keeps its signed value modulo `2 ^ w`. -/
theorem cut_eq_ofInt (a : BitVec v) : a.setWidth w = BitVec.ofInt w a.toInt := by
  apply eq_of_toInt_eq
  rw [toInt_ofInt, toInt_setWidth, toInt_eq_toNat_bmod, Int.bmod_bmod_of_dvd (pow_dvd_pow 2 h)]

theorem cut_sdiv :
    ((x.signExtend v).sdiv (y.signExtend v)).setWidth w = BitVec.ofInt w (x.toInt.tdiv y.toInt) := by
  apply eq_of_toInt_eq
  rw [cut_eq_ofInt h, toInt_ofInt, toInt_ofInt, toInt_sdiv,
    toInt_signExtend_of_le h, toInt_signExtend_of_le h,
    Int.bmod_bmod_of_dvd (pow_dvd_pow 2 h)]

theorem cut_srem :
    ((x.signExtend v).srem (y.signExtend v)).setWidth w = BitVec.ofInt w (x.toInt.tmod y.toInt) := by
  rw [cut_eq_ofInt h, toInt_srem, toInt_signExtend_of_le h, toInt_signExtend_of_le h]

theorem cut_sshiftRight (n : ℕ) :
    ((x.signExtend v).sshiftRight n).setWidth w = x.sshiftRight n := by
  rw [cut_eq_ofInt h, toInt_sshiftRight, toInt_signExtend_of_le h, ← sshiftRight_eq]

theorem signExtend_eq_zero : x.signExtend v = 0 ↔ x = 0 := by
  constructor
  · intro e
    apply eq_of_toInt_eq
    rw [← toInt_signExtend_of_le h, e]
    simp
  · rintro rfl
    apply eq_of_toInt_eq
    rw [toInt_signExtend_of_le h]
    simp

end Signed

theorem sshiftRight_of_le {x : BitVec w} {n : ℕ} (h : w ≤ n) :
    x.sshiftRight n = if x.msb then BitVec.allOnes w else 0 := by
  ext i hi
  rw [getElem_sshiftRight]
  split
  · omega
  · cases x.msb <;> simp

end WidthArithmetic
