import Mathlib.Tactic
import Mathlib.Data.BitVec

/-!
# Little-endian byte strings and flat byte memories

Numbers as byte strings, and a memory as a function from wrapping addresses to
bytes. A store writes its bytes one at a time, each address being the previous
one plus one modulo the size of the address space.
-/
namespace LittleEndian

open List

/-- The number a byte string denotes, least significant byte first. -/
def leNat : List (BitVec 8) → ℕ
  | [] => 0
  | b :: bs => b.toNat + 256 * leNat bs

/-- The first `n` bytes of a word, least significant first. -/
def toLeBytes (n : ℕ) (v : BitVec w) : List (BitVec 8) :=
  (List.range n).map fun i => v.extractLsb' (8 * i) 8

@[simp] theorem length_toLeBytes (n : ℕ) (v : BitVec w) : (toLeBytes n v).length = n := by
  simp [toLeBytes]

theorem leNat_append (bs cs : List (BitVec 8)) :
    leNat (bs ++ cs) = leNat bs + 256 ^ bs.length * leNat cs := by
  induction bs with
  | nil => simp [leNat]
  | cons b bs ih => simp only [cons_append, leNat, ih, length_cons]; ring

theorem leNat_lt (bs : List (BitVec 8)) : leNat bs < 256 ^ bs.length := by
  induction bs with
  | nil => simp [leNat]
  | cons b bs ih =>
    have hb : b.toNat < 256 := b.isLt
    simp only [leNat, length_cons, pow_succ]
    omega

@[simp] theorem leNat_replicate_zero (n : ℕ) : leNat (List.replicate n 0#8) = 0 := by
  induction n with
  | zero => rfl
  | succ n ih =>
    rw [replicate_succ, leNat, ih]
    rfl

theorem toLeBytes_succ (n : ℕ) (v : BitVec w) :
    toLeBytes (n + 1) v = toLeBytes n v ++ [v.extractLsb' (8 * n) 8] := by
  simp [toLeBytes, range_succ]

theorem take_toLeBytes {k n : ℕ} (h : k ≤ n) (v : BitVec w) :
    (toLeBytes n v).take k = toLeBytes k v := by
  simp [toLeBytes, ← map_take, take_range, min_eq_left h]

theorem toLeBytes_add (m n : ℕ) (v : BitVec w) :
    toLeBytes (m + n) v = toLeBytes m v ++ toLeBytes n (v >>> (8 * m)) := by
  simp only [toLeBytes, range_add, map_append, map_map]
  congr 1
  apply map_congr_left
  intro i _
  apply BitVec.eq_of_toNat_eq
  simp only [Function.comp_apply, BitVec.extractLsb'_toNat, BitVec.toNat_ushiftRight,
    ← Nat.shiftRight_add]
  rw [mul_add]

theorem leNat_toLeBytes (n : ℕ) (v : BitVec w) : leNat (toLeBytes n v) = v.toNat % 256 ^ n := by
  induction n with
  | zero => simp [toLeBytes, leNat, Nat.mod_one]
  | succ n ih =>
    rw [toLeBytes_succ, leNat_append, ih, length_toLeBytes]
    simp only [leNat, BitVec.extractLsb'_toNat, Nat.shiftRight_eq_div_pow, mul_zero, add_zero]
    rw [pow_mul, show (2 : ℕ) ^ 8 = 256 from rfl, pow_succ 256 n, Nat.mod_mul]

theorem toLeBytes_congr {n : ℕ} {v : BitVec w} {u : BitVec w'}
    (h : v.toNat % 256 ^ n = u.toNat % 256 ^ n) : toLeBytes n v = toLeBytes n u := by
  unfold toLeBytes
  apply map_congr_left
  intro i hi
  have hi : i + 1 ≤ n := mem_range.mp hi
  apply BitVec.eq_of_toNat_eq
  simp only [BitVec.extractLsb'_toNat, Nat.shiftRight_eq_div_pow]
  have key : ∀ x : ℕ, x / 2 ^ (8 * i) % 2 ^ 8 = x % 256 ^ n / 2 ^ (8 * i) % 2 ^ 8 := by
    intro x
    have hp : (256 : ℕ) ^ n = 2 ^ (8 * i) * 2 ^ (8 * (n - i)) := by
      rw [← pow_add, show 8 * i + 8 * (n - i) = 8 * n by omega, pow_mul]; norm_num
    rw [hp, Nat.mod_mul_right_div_self, Nat.mod_mod_of_dvd]
    exact pow_dvd_pow 2 (by omega)
  rw [key v.toNat, key u.toNat, h]

section FlatMemory

variable {w : ℕ}

/-- Writing a byte string one byte at a time. -/
def storeBytes (m : BitVec w → BitVec 8) (a : BitVec w) : List (BitVec 8) → BitVec w → BitVec 8
  | [] => m
  | b :: bs => storeBytes (Function.update m a b) (a + 1) bs

def loadBytes (m : BitVec w → BitVec 8) (a : BitVec w) (n : ℕ) : List (BitVec 8) :=
  (List.range n).map fun i => m (a + BitVec.ofNat w i)

variable (m : BitVec w → BitVec 8)

include m

@[simp] theorem length_loadBytes (a : BitVec w) (n : ℕ) : (loadBytes m a n).length = n := by
  simp [loadBytes]

theorem loadBytes_add (a : BitVec w) (j k : ℕ) :
    loadBytes m a (j + k) = loadBytes m a j ++ loadBytes m (a + BitVec.ofNat w j) k := by
  simp only [loadBytes, range_add, map_append, map_map]
  congr 1
  apply map_congr_left
  intro i _
  simp only [Function.comp_apply, BitVec.ofNat_add, BitVec.add_assoc]

theorem storeBytes_append (a : BitVec w) (bs cs : List (BitVec 8)) :
    storeBytes m a (bs ++ cs) = storeBytes (storeBytes m a bs) (a + BitVec.ofNat w bs.length) cs := by
  induction bs generalizing m a with
  | nil => simp [storeBytes]
  | cons b bs ih =>
    simp only [cons_append, storeBytes, ih, length_cons]
    rw [BitVec.add_assoc, add_comm bs.length 1, BitVec.ofNat_add]
    rfl

theorem storeBytes_apply (a x : BitVec w) (bs : List (BitVec 8)) (h : bs.length ≤ 2 ^ w) :
    storeBytes m a bs x = (bs[(x - a).toNat]?).getD (m x) := by
  induction bs generalizing m a with
  | nil => simp [storeBytes]
  | cons b bs ih =>
    simp only [length_cons] at h
    rw [storeBytes, ih _ _ (by omega)]
    have hstep : x - (a + 1) = (x - a) - 1 := by ring
    rw [hstep, BitVec.toNat_sub]
    rcases Nat.eq_zero_or_pos w with rfl | hw
    · have hb : bs = [] := length_eq_zero_iff.mp (by omega)
      have hx : x = a := Subsingleton.elim x a
      subst hb hx
      simp
    have h1 : (1 : BitVec w).toNat = 1 := by simp [Nat.one_mod_eq_one.mpr, hw.ne']
    have hlt := (x - a).isLt
    rw [h1]
    by_cases hx : x = a
    · subst hx
      rw [getElem?_eq_none (by simp; omega)]
      simp
    · obtain ⟨k, hk⟩ : ∃ k, (x - a).toNat = k + 1 := by
        refine Nat.exists_eq_succ_of_ne_zero fun h0 => hx (sub_eq_zero.mp ?_)
        exact BitVec.eq_of_toNat_eq (by simpa using h0)
      rw [hk, show 2 ^ w - 1 + (k + 1) = 2 ^ w + k by omega, Nat.add_mod_left,
        Nat.mod_eq_of_lt (by omega), Function.update_of_ne hx]
      simp

end FlatMemory

theorem loadBytes_storeBytes (m : BitVec w → BitVec 8) (a : BitVec w) (bs : List (BitVec 8))
    (h : bs.length ≤ 2 ^ w) : loadBytes (storeBytes m a bs) a bs.length = bs := by
  apply ext_getElem (by simp)
  intro i hi hi'
  have hx : (a + BitVec.ofNat w i - a).toNat = i := by
    rw [BitVec.add_comm, BitVec.add_sub_cancel, BitVec.toNat_ofNat, Nat.mod_eq_of_lt (by omega)]
  simp only [loadBytes, getElem_map, getElem_range]
  rw [storeBytes_apply _ _ _ _ h, hx, getElem?_eq_getElem hi', Option.getD_some]

end LittleEndian
