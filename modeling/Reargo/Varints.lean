import Mathlib.Tactic
import Mathlib.Data.BitVec
import Reargo.ByteReaders

/-!
# Variable-length numbers

64-bit numbers in groups of seven bits, low groups first, and differences of two numbers
with the sign in the lowest bit.
-/
namespace Varints

open ByteReaders BitVec

/-- The groups of `v`, all but the last with the high bit set. -/
def varint (v : BitVec 64) : List (BitVec 8) :=
  if 0x80 ≤ v then (v.truncate 8 ||| 0x80) :: varint (v >>> 7) else [v.truncate 8]
termination_by v.toNat
decreasing_by
  rename_i h
  have hv : 128 ≤ v.toNat := le_def.mp h
  simp only [toNat_ushiftRight, Nat.shiftRight_eq_div_pow]
  omega

def varintLoop : List ℕ → BitVec 64 → Reader (BitVec 8) (BitVec 64)
  | [], _ => failure
  | shift :: shifts, v => do
    let byte ← item
    let v := v ||| ((byte &&& 0x7f).zeroExtend 64 <<< shift)
    if byte < 0x80 then pure v else varintLoop shifts v

def readVarint : Reader (BitVec 8) (BitVec 64) := varintLoop (List.range' 0 10 7) 0

def zigzag (d : BitVec 64) : BitVec 64 := (d <<< 1) ^^^ d.sshiftRight 63

def unzigzag (z : BitVec 64) : BitVec 64 := (z >>> 1) ^^^ -(z &&& 1)

def delta (v base : BitVec 64) : List (BitVec 8) := varint (zigzag (v - base))

def readDelta (base : BitVec 64) : Reader (BitVec 8) (BitVec 64) := do
  let z ← readVarint
  pure (base + unzigzag z)

variable {v : BitVec 64}

section Bits

theorem group_marked (b : BitVec 8) : (b ||| 0x80) &&& 0x7f = b &&& 0x7f := by
  apply eq_of_toNat_eq
  have hb := b.isLt
  revert b
  decide

theorem getLsbD_group (v : BitVec 64) (i : ℕ) :
    ((v.truncate 8 &&& 0x7f).zeroExtend 64).getLsbD i = (decide (i < 7) && v.getLsbD i) := by
  have hmask : (0x7f : BitVec 8).getLsbD i = decide (i < 7) := by
    rcases lt_or_ge i 8 with hi | hi
    · interval_cases i <;> rfl
    · have hno : ¬ i < 7 := by omega
      simp [getLsbD_of_ge _ i hi, hno]
  simp only [truncate_eq_setWidth, getLsbD_setWidth, getLsbD_and, hmask]
  rcases lt_or_ge i 7 with hi | hi
  · have h8 : i < 8 := by omega
    have h64 : i < 64 := by omega
    simp [hi, h8, h64]
  · simp [not_lt.mpr hi]

theorem next_group (v acc : BitVec 64) (shift : ℕ) :
    acc ||| ((v.truncate 8 &&& 0x7f).zeroExtend 64 <<< shift) ||| ((v >>> 7) <<< (shift + 7)) =
      acc ||| (v <<< shift) := by
  apply eq_of_getLsbD_eq
  intro i hi
  simp only [getLsbD_or, getLsbD_shiftLeft, getLsbD_group,
    getLsbD_ushiftRight, Bool.or_assoc]
  congr 1
  rcases lt_or_ge i shift with hs | hs
  · have h7 : i < shift + 7 := by omega
    simp [hs, h7]
  · rcases lt_or_ge i (shift + 7) with h7 | h7
    · have hlow : i - shift < 7 := by omega
      simp [hi, not_lt.mpr hs, h7, hlow]
    · have hlow : ¬ i - shift < 7 := by omega
      have hsum : 7 + (i - (shift + 7)) = i - shift := by omega
      simp [hi, not_lt.mpr hs, not_lt.mpr h7, hlow, hsum]

theorem ushiftRight_eq_zero (h : v.toNat < 128) : v >>> 7 = 0 := by
  apply eq_of_toNat_eq
  simp only [toNat_ushiftRight, Nat.shiftRight_eq_div_pow]
  exact Nat.div_eq_of_lt h

theorem last_group (h : v.toNat < 128) (acc : BitVec 64) (shift : ℕ) :
    acc ||| ((v.truncate 8 &&& 0x7f).zeroExtend 64 <<< shift) = acc ||| (v <<< shift) := by
  have hnext := next_group v acc shift
  simpa [ushiftRight_eq_zero h] using hnext

theorem neg_low_bit (z : BitVec 64) :
    -(z &&& 1) = if z.getLsbD 0 then BitVec.allOnes 64 else 0 := by
  have hlow : z &&& 1 = if z.getLsbD 0 then 1 else 0 := by
    apply eq_of_getLsbD_eq
    intro i hi
    cases i with
    | zero => cases hz : z.getLsbD 0 <;> simp_all
    | succ i => cases hz : z.getLsbD 0 <;> simp_all
  rw [hlow]
  cases z.getLsbD 0 <;> rfl

theorem getLsbD_zigzag (d : BitVec 64) (i : ℕ) :
    (zigzag d).getLsbD i =
      (decide (i < 64) && ((decide (0 < i) && d.getLsbD (i - 1)) ^^ d.msb)) := by
  have hsign : (d.sshiftRight 63).getLsbD i = (decide (i < 64) && d.msb) := by
    rw [getLsbD_sshiftRight]
    rcases lt_or_ge i 64 with hi | hi
    · cases i with
      | zero => simp [msb_eq_getLsbD_last]
      | succ i =>
        have hge : ¬ 63 + (i + 1) < 64 := by omega
        simp only [hi, hge, if_false, not_le.mpr hi, decide_true, decide_false, Bool.not_false]
    · simp [hi, not_lt.mpr hi]
  simp only [zigzag, getLsbD_xor, hsign, getLsbD_shiftLeft]
  rcases lt_or_ge i 64 with hi | hi
  · cases i <;> simp [hi]
  · simp [not_lt.mpr hi]

theorem unzigzag_zigzag (d : BitVec 64) : unzigzag (zigzag d) = d := by
  apply eq_of_getLsbD_eq
  intro i hi
  have hmsb : d.msb = d.getLsbD 63 := msb_eq_getLsbD_last d
  have hneg : (-(zigzag d &&& 1)).getLsbD i = d.msb := by
    rw [neg_low_bit, getLsbD_zigzag]
    cases d.msb with
    | true =>
      simp only [lt_irrefl, decide_false, Bool.false_and, Bool.false_bne, Nat.zero_lt_succ,
        decide_true, Bool.true_and, if_true, getLsbD_allOnes, hi]
    | false => simp
  have hhigh : (zigzag d >>> 1).getLsbD i = (decide (i < 63) && (d.getLsbD i ^^ d.msb)) := by
    rw [getLsbD_ushiftRight, getLsbD_zigzag]
    have hlt : 1 + i < 64 ↔ i < 63 := by omega
    simp [hlt]
  simp only [unzigzag, getLsbD_xor, hneg, hhigh]
  rcases lt_or_ge i 63 with h | h
  · simp [h]
  · have h63 : i = 63 := by omega
    subst h63
    simp [hmsb]

end Bits

section Loop

variable {b : BitVec 8} {shift : ℕ} {shifts : List ℕ} {acc : BitVec 64}

theorem reads_last (hb : b < 0x80) :
    Reads (varintLoop (shift :: shifts) acc) [b]
      (acc ||| ((b &&& 0x7f).zeroExtend 64 <<< shift)) := by
  apply (reads_item b).map
  simp only [hb, if_true]
  exact reads_pure _

theorem reads_next {bs : List (BitVec 8)} (hb : ¬ b < 0x80)
    (h : Reads (varintLoop shifts (acc ||| ((b &&& 0x7f).zeroExtend 64 <<< shift))) bs v) :
    Reads (varintLoop (shift :: shifts) acc) (b :: bs) v := by
  apply (reads_item b).bind
  simp only [hb, if_false]
  exact h

theorem marked_ge (b : BitVec 8) : ¬ b ||| 0x80 < 0x80 := by
  revert b
  decide

theorem truncate_lt (h : v.toNat < 128) : v.truncate 8 < 0x80 := by
  simp only [lt_def, truncate_eq_setWidth, toNat_setWidth]
  have hmod : v.toNat % 2 ^ 8 ≤ v.toNat := Nat.mod_le _ _
  exact lt_of_le_of_lt hmod h

end Loop

theorem reads_varintLoop {n : ℕ} (h : v.toNat < 128 ^ (n + 1)) (shift : ℕ) (acc : BitVec 64) :
    Reads (varintLoop (List.range' shift (n + 1) 7) acc) (varint v) (acc ||| (v <<< shift)) := by
  induction n generalizing v shift acc with
  | zero =>
    have hlt : v.toNat < 128 := by simpa using h
    have hle : ¬ 0x80 ≤ v := not_le.mpr hlt
    rw [varint, if_neg hle, ← last_group hlt]
    exact reads_last (truncate_lt hlt)
  | succ n ih =>
    rw [varint]
    split
    · -- the rest of the number goes on in the groups after this one
      have hrest : (v >>> 7).toNat < 128 ^ (n + 1) := by
        simp only [toNat_ushiftRight, Nat.shiftRight_eq_div_pow]
        apply Nat.div_lt_of_lt_mul
        calc v.toNat < 128 ^ (n + 1 + 1) := h
          _ = 2 ^ 7 * 128 ^ (n + 1) := by ring
      apply reads_next (marked_ge _)
      rw [group_marked, ← next_group v acc shift]
      exact ih hrest (shift + 7) _
    · rename_i hle
      have hlt : v.toNat < 128 := not_le.mp hle
      rw [← last_group hlt]
      exact reads_last (truncate_lt hlt)

theorem reads_varint (v : BitVec 64) : Reads readVarint (varint v) v := by
  have hlt : v.toNat < 128 ^ (9 + 1) := v.isLt.trans (by norm_num)
  have hloop := reads_varintLoop hlt 0 0
  have hzero : (0 : BitVec 64) ||| v <<< (0 : ℕ) = v := by simp
  rwa [hzero] at hloop

theorem extensible_varint : Extensible readVarint := by
  have hloop : ∀ shifts v, Extensible (varintLoop shifts v) := by
    intro shifts
    induction shifts with
    | nil => exact fun _ => extensible_failure
    | cons shift shifts ih =>
      intro v
      apply extensible_item.bind
      intro byte
      exact (extensible_pure _).ite (ih _)
  exact hloop _ _

theorem reads_delta (v base : BitVec 64) : Reads (readDelta base) (delta v base) v := by
  apply (reads_varint (zigzag (v - base))).map
  have hback : base + unzigzag (zigzag (v - base)) = v := by
    rw [unzigzag_zigzag]
    ring
  exact hback.symm ▸ reads_pure _

theorem extensible_delta (base : BitVec 64) : Extensible (readDelta base) :=
  extensible_varint.bind fun _ => extensible_pure _

end Varints
