import Reargo.PcodeModel

/-!
# Constants known byte by byte

Up to eight bytes of a value, each known or not. What an operation does is read off the
bytes: every lemma below says which bytes the result knows.
-/
namespace ByteConsts

open PcodeModel BitVec

def bitMask (size : ℕ) : U64 :=
  if size ≥ 8 then BitVec.allOnes 64 else ((1 : U64) <<< (size * 8)) - 1

def byteMask (size : ℕ) : BitVec 8 := BitVec.ofNat 8 (2 ^ min size 8 - 1)

/-- The bits of the bytes set in a mask. -/
def bitsOf (known : BitVec 8) : U64 :=
  (List.range 8).foldl (fun t i => if known.getLsbD i then t ||| (255#64 <<< (i * 8)) else t) 0

def byteAt {w : ℕ} (x : BitVec w) (i : ℕ) : Byte := x.extractLsb' (8 * i) 8

variable {i : ℕ}

section Masks

theorem getLsbD_byteAt {w : ℕ} (x : BitVec w) (i j : ℕ) :
    (byteAt x i).getLsbD j = (decide (j < 8) && x.getLsbD (8 * i + j)) := by
  unfold byteAt
  rw [getLsbD_extractLsb']

theorem byteAt_ext {w u : ℕ} {x : BitVec w} {y : BitVec u}
    (h : ∀ j < 8, x.getLsbD (8 * i + j) = y.getLsbD (8 * i + j)) : byteAt x i = byteAt y i := by
  apply eq_of_getLsbD_eq
  intro j hj
  rw [getLsbD_byteAt, getLsbD_byteAt, h j hj]

theorem eq_of_byteAt {x y : U64} (h : ∀ i < 8, byteAt x i = byteAt y i) : x = y := by
  apply eq_of_getLsbD_eq
  intro j hj
  have hbit := congrArg (fun b => b.getLsbD (j % 8)) (h (j / 8) (by omega))
  simp only [getLsbD_byteAt] at hbit
  rw [Nat.div_add_mod] at hbit
  simpa [Nat.mod_lt] using hbit

theorem byteAt_zero {w : ℕ} (i : ℕ) : byteAt (0 : BitVec w) i = 0 := by
  apply eq_of_getLsbD_eq
  intro j hj
  rw [getLsbD_byteAt]
  simp

theorem getLsbD_byteMask (size : ℕ) (hi : i < 8) :
    (byteMask size).getLsbD i = decide (i < size) := by
  unfold byteMask
  rw [getLsbD_ofNat, Nat.testBit_two_pow_sub_one]
  simp [hi]

theorem getLsbD_bitMask (size : ℕ) {j : ℕ} (hj : j < 64) :
    (bitMask size).getLsbD j = decide (j < size * 8) := by
  unfold bitMask
  split
  · next hge =>
    rw [getLsbD_allOnes, decide_eq_decide]
    omega
  · next hlt =>
    have hpow : ((1 : U64) <<< (size * 8)) - 1 = BitVec.ofNat 64 (2 ^ (size * 8) - 1) := by
      apply eq_of_toNat_eq
      have hpos : 0 < 2 ^ (size * 8) := Nat.two_pow_pos _
      have hle : 2 ^ (size * 8) < 2 ^ 64 := Nat.pow_lt_pow_right (by decide) (by omega)
      rw [toNat_sub, toNat_shiftLeft, toNat_ofNat]
      have hone : (1 : U64).toNat = 1 := rfl
      rw [hone, Nat.shiftLeft_eq, one_mul, Nat.mod_eq_of_lt hle]
      omega
    rw [hpow, getLsbD_ofNat, Nat.testBit_two_pow_sub_one]
    simp [hj]

theorem getLsbD_bitsOf (known : BitVec 8) {j : ℕ} (hj : j < 64) :
    (bitsOf known).getLsbD j = known.getLsbD (j / 8) := by
  have hfold : ∀ n, n ≤ 8 → ((List.range n).foldl
      (fun t i => if known.getLsbD i then t ||| (255#64 <<< (i * 8)) else t) 0).getLsbD j =
        (decide (j / 8 < n) && known.getLsbD (j / 8)) := by
    intro n hn
    induction n with
    | zero => simp
    | succ n ih =>
      rw [List.range_succ, List.foldl_append, List.foldl_cons, List.foldl_nil]
      have hbyte : (255#64 <<< (n * 8)).getLsbD j = decide (j / 8 = n) := by
        rw [getLsbD_shiftLeft, getLsbD_ofNat]
        have h255 : Nat.testBit 255 (j - n * 8) = decide (j - n * 8 < 8) := by
          rw [show 255 = 2 ^ 8 - 1 by rfl, Nat.testBit_two_pow_sub_one]
        rw [h255]
        simp only [hj, decide_true, Bool.true_and]
        rw [Bool.eq_iff_iff]
        simp only [Bool.and_eq_true, Bool.not_eq_true', decide_eq_false_iff_not, decide_eq_true_eq]
        omega
      by_cases hk : known.getLsbD n = true
      · rw [if_pos hk, getLsbD_or, ih (by omega), hbyte]
        by_cases heq : j / 8 = n
        · rw [heq, hk]
          simp
        · have hiff : (j / 8 < n + 1) ↔ j / 8 < n := by omega
          simp [heq, hiff]
      · rw [if_neg hk, ih (by omega)]
        by_cases heq : j / 8 = n
        · rw [heq]
          simp [hk]
        · have hiff : (j / 8 < n + 1) ↔ j / 8 < n := by omega
          simp [hiff]
  have h := hfold 8 (le_refl _)
  rw [show decide (j / 8 < 8) = true by rw [decide_eq_true_eq]; omega, Bool.true_and] at h
  exact h

theorem byteAt_and_bitsOf (x : U64) (known : BitVec 8) (hi : i < 8) :
    byteAt (x &&& bitsOf known) i = if known.getLsbD i then byteAt x i else 0 := by
  apply eq_of_getLsbD_eq
  intro j hj
  have hdiv : (8 * i + j) / 8 = i := by omega
  rw [getLsbD_byteAt, getLsbD_and, getLsbD_bitsOf _ (by omega), hdiv]
  split
  · next hk =>
    rw [hk, getLsbD_byteAt, Bool.and_true]
  · next hk => simp [hk]

theorem byteAt_shiftRight (x : U64) (p i : ℕ) : byteAt (x >>> (p * 8)) i = byteAt x (p + i) := by
  apply eq_of_getLsbD_eq
  intro j hj
  rw [getLsbD_byteAt, getLsbD_byteAt, getLsbD_ushiftRight]
  congr 2
  omega

theorem byteAt_shiftLeft (x : U64) (p : ℕ) (hi : i < 8) :
    byteAt (x <<< (p * 8)) i = if p ≤ i then byteAt x (i - p) else 0 := by
  apply eq_of_getLsbD_eq
  intro j hj
  rw [getLsbD_byteAt, getLsbD_shiftLeft]
  split
  · next hp =>
    have hsub : 8 * i + j - p * 8 = 8 * (i - p) + j := by omega
    have hlt : ¬ 8 * i + j < p * 8 := by omega
    have hlt' : 8 * i + j < 64 := by omega
    rw [getLsbD_byteAt, hsub]
    simp [hlt, hlt']
  · next hp =>
    have hlt : 8 * i + j < p * 8 := by omega
    simp [hlt]

theorem byteAt_or (x y : U64) (i : ℕ) : byteAt (x ||| y) i = byteAt x i ||| byteAt y i := by
  apply eq_of_getLsbD_eq
  intro j hj
  rw [getLsbD_byteAt, getLsbD_or, getLsbD_or, getLsbD_byteAt, getLsbD_byteAt]
  simp [hj]

theorem byteAt_xor (x y : U64) (i : ℕ) : byteAt (x ^^^ y) i = byteAt x i ^^^ byteAt y i := by
  apply eq_of_getLsbD_eq
  intro j hj
  rw [getLsbD_byteAt, getLsbD_xor, getLsbD_xor, getLsbD_byteAt, getLsbD_byteAt]
  simp [hj]

end Masks

def nonzeroBytes (x : U64) : BitVec 8 :=
  let low7 : U64 := 0x7f7f7f7f7f7f7f7f
  -- the high bit of each byte is set when the byte is not zero
  let high := (((x &&& low7) + low7) ||| x) &&& ~~~low7
  (((high >>> 7) * 0x0102040810204080) >>> 56).setWidth 8

section Nonzero

theorem toNat_byteAt (x : U64) (i : ℕ) : (byteAt x i).toNat = x.toNat / 2 ^ (8 * i) % 256 := by
  unfold byteAt
  rw [extractLsb'_toNat, Nat.shiftRight_eq_div_pow]

theorem getLsbD_add_low7 (x : U64) (hi : i < 8) :
    ((x &&& 0x7f7f7f7f7f7f7f7f) + 0x7f7f7f7f7f7f7f7f : U64).getLsbD (8 * i + 7) =
      decide ((byteAt x i).toNat % 128 ≠ 0) := by
  generalize ha : x &&& 0x7f7f7f7f7f7f7f7f = a
  have hbyte : ∀ j < 8, (byteAt a j).toNat = (byteAt x j).toNat % 128 := by
    intro j hj
    have hlow : byteAt (0x7f7f7f7f7f7f7f7f : U64) j = 127#8 := by
      interval_cases j <;> decide
    have hand : byteAt a j = byteAt x j &&& 127#8 := by
      rw [← ha, ← hlow]
      apply eq_of_getLsbD_eq
      intro l hl
      rw [getLsbD_byteAt, getLsbD_and, getLsbD_and, getLsbD_byteAt, getLsbD_byteAt]
      simp [hl]
    rw [hand, toNat_and]
    exact Nat.and_two_pow_sub_one_eq_mod (n := 7) _
  rw [← hbyte i hi]
  have hb : ∀ j < 8, a.toNat / 2 ^ (8 * j) % 256 < 128 := by
    intro j hj
    rw [← toNat_byteAt, hbyte j hj]
    exact Nat.mod_lt _ (by decide)
  have h0 := hb 0 (by decide)
  have h1 := hb 1 (by decide)
  have h2 := hb 2 (by decide)
  have h3 := hb 3 (by decide)
  have h4 := hb 4 (by decide)
  have h5 := hb 5 (by decide)
  have h6 := hb 6 (by decide)
  have h7 := hb 7 (by decide)
  have hlt := a.isLt
  rw [toNat_byteAt, BitVec.getLsbD, toNat_add, Nat.testBit_eq_decide_div_mod_eq]
  rw [decide_eq_decide]
  have hconst : (0x7f7f7f7f7f7f7f7f : U64).toNat = 0x7f7f7f7f7f7f7f7f := rfl
  rw [hconst]
  generalize a.toNat = n at *
  interval_cases i <;> omega

theorem gather_bits : ∀ k : BitVec 8,
    (((bitsOf k &&& 0x0101010101010101) * 0x0102040810204080) >>> 56).setWidth 8 = k := by
  decide +kernel

theorem getLsbD_nonzeroBytes (x : U64) (hi : i < 8) :
    (nonzeroBytes x).getLsbD i = decide (byteAt x i ≠ 0) := by
  obtain ⟨k, hk⟩ : ∃ k : BitVec 8, ∀ i < 8, k.getLsbD i = decide (byteAt x i ≠ 0) := by
    refine ⟨BitVec.ofBoolListLE ((List.range 8).map fun i => decide (byteAt x i ≠ 0)), ?_⟩
    intro i hi
    refine Eq.trans getLsbD_ofBoolListLE ?_
    simp [hi]
  have hhigh : (((((x &&& 0x7f7f7f7f7f7f7f7f) + 0x7f7f7f7f7f7f7f7f) ||| x) &&&
      ~~~0x7f7f7f7f7f7f7f7f) >>> 7 : U64) = bitsOf k &&& 0x0101010101010101 := by
    apply eq_of_getLsbD_eq
    intro j hj
    rw [getLsbD_ushiftRight, getLsbD_and, getLsbD_or, getLsbD_and, getLsbD_bitsOf _ hj]
    by_cases h0 : j % 8 = 0
    · obtain ⟨i, rfl⟩ : ∃ i, j = 8 * i := ⟨j / 8, by omega⟩
      have hi : i < 8 := by omega
      have hdiv : 8 * i / 8 = i := by omega
      have hmask : (~~~(0x7f7f7f7f7f7f7f7f : U64)).getLsbD (8 * i + 7) = true := by
        interval_cases i <;> decide
      have hones : (0x0101010101010101 : U64).getLsbD (8 * i) = true := by
        interval_cases i <;> decide
      rw [add_comm 7 (8 * i), hmask, hones, hdiv, hk i hi, getLsbD_add_low7 x hi]
      simp only [Bool.and_true]
      -- the byte is its high bit and the seven below it
      have hbit : x.getLsbD (8 * i + 7) = decide (128 ≤ (byteAt x i).toNat) := by
        have hb := getLsbD_byteAt x i 7
        rw [show decide (7 < 8) = true by rfl, Bool.true_and] at hb
        rw [← hb, BitVec.getLsbD, Nat.testBit_eq_decide_div_mod_eq, decide_eq_decide]
        have := (byteAt x i).isLt
        omega
      have hzero : byteAt x i = 0 ↔ (byteAt x i).toNat = 0 :=
        ⟨fun h => by rw [h]; rfl, fun h => eq_of_toNat_eq h⟩
      rw [hbit, Bool.eq_iff_iff]
      simp only [Bool.or_eq_true, decide_eq_true_eq, hzero, ne_eq]
      have := (byteAt x i).isLt
      omega
    · have hmask : (~~~(0x7f7f7f7f7f7f7f7f : U64)).getLsbD (7 + j) = false := by
        interval_cases j <;> first | omega | decide
      have hones : (0x0101010101010101 : U64).getLsbD j = false := by
        interval_cases j <;> first | omega | decide
      rw [hmask, hones, Bool.and_false, Bool.and_false]
  unfold nonzeroBytes
  simp only
  rw [hhigh, gather_bits, hk i hi]

end Nonzero

/-- Up to eight bytes of a value; the unknown ones are zero. -/
structure ByteConst where
  value : U64
  known : BitVec 8
  zeroed : value &&& bitsOf known = value

namespace ByteConst

def unknown : ByteConst := ⟨0, 0, by decide⟩

def new (value : U64) (known : BitVec 8) : ByteConst :=
  ⟨value &&& bitsOf known, known, by rw [BitVec.and_assoc, BitVec.and_self]⟩

def konst (v : U64) (size : ℕ) : ByteConst :=
  if size = 0 ∨ size > 8 then unknown else new v (byteMask size)

def get (b : ByteConst) (size : ℕ) : Option U64 :=
  if size = 0 ∨ size > 8 then none
  else if b.known &&& byteMask size = byteMask size then some (b.value &&& bitMask size)
  else none

def isUnknown (b : ByteConst) : Bool := b.known = 0

def trunc (b : ByteConst) (size : ℕ) : ByteConst := new b.value (b.known &&& byteMask (min size 8))

def bytesAt (b : ByteConst) (pos size : ℕ) : ByteConst :=
  if pos ≥ 8 then unknown else (new (b.value >>> (pos * 8)) (b.known >>> pos)).trunc size

def merge (b : ByteConst) (pos size : ℕ) (v : ByteConst) : ByteConst :=
  let m := byteMask size <<< pos
  let v := v.trunc size
  new ((b.value &&& ~~~ bitsOf m) ||| (v.value <<< (pos * 8)))
    ((b.known &&& ~~~ m) ||| (v.known <<< pos))

/-- What both sides know and agree on. -/
def intersect (b c : ByteConst) : ByteConst :=
  let both := b.known &&& c.known
  let diff := (b.value ^^^ c.value) &&& bitsOf both
  new b.value (both &&& ~~~ nonzeroBytes diff)

def byte (b : ByteConst) (i : ℕ) : Option Byte :=
  if b.known.getLsbD i then some (byteAt b.value i) else none

section Bytes

variable {b c v : ByteConst} {i : ℕ}

theorem byteAt_value (hi : i < 8) :
    byteAt b.value i = if b.known.getLsbD i then byteAt b.value i else 0 := by
  have h := byteAt_and_bitsOf b.value b.known hi
  rwa [b.zeroed] at h

theorem byte_eq_none_of_le (hi : 8 ≤ i) : b.byte i = none := by
  unfold byte
  rw [getLsbD_of_ge _ _ hi]
  rfl

theorem byte_isSome (b : ByteConst) (i : ℕ) : (b.byte i).isSome = b.known.getLsbD i := by
  unfold byte
  cases b.known.getLsbD i <;> rfl

/-- Equal knowledge is equal. -/
theorem ext_byte (h : ∀ i < 8, b.byte i = c.byte i) : b = c := by
  have hknown : b.known = c.known := by
    apply eq_of_getLsbD_eq
    intro i hi
    rw [← byte_isSome, ← byte_isSome, h i hi]
  have hvalue : b.value = c.value := by
    apply eq_of_byteAt
    intro i hi
    have hb := h i hi
    rw [byteAt_value hi, byteAt_value (b := c) hi, ← hknown]
    unfold byte at hb
    rw [← hknown] at hb
    split
    · next hk =>
      rw [if_pos hk, if_pos hk] at hb
      exact Option.some.inj hb
    · rfl
  obtain ⟨value, known, zeroed⟩ := b
  obtain ⟨value', known', zeroed'⟩ := c
  simp only at hknown hvalue
  subst hknown hvalue
  rfl

instance instDecidableEq : DecidableEq ByteConst := fun b c =>
  decidable_of_iff (b.value = c.value ∧ b.known = c.known) (by
    constructor
    · rintro ⟨hv, hk⟩
      refine ext_byte fun i _ => ?_
      unfold byte
      rw [hv, hk]
    · rintro rfl
      exact ⟨rfl, rfl⟩)

theorem byte_new (value : U64) (known : BitVec 8) (i : ℕ) :
    (new value known).byte i = if known.getLsbD i then some (byteAt value i) else none := by
  unfold byte new
  simp only
  split
  · next hk =>
    have hi : i < 8 := lt_of_getLsbD hk
    rw [byteAt_and_bitsOf _ _ hi, if_pos hk]
  · rfl

theorem byte_unknown (i : ℕ) : unknown.byte i = none := by
  unfold byte unknown
  simp

theorem isUnknown_iff : b.isUnknown = true ↔ b = unknown := by
  unfold isUnknown
  rw [decide_eq_true_eq]
  constructor
  · intro hk
    refine ext_byte fun i _ => ?_
    rw [byte_unknown]
    unfold byte
    rw [hk]
    simp
  · rintro rfl
    rfl

variable {size : ℕ}

theorem byte_konst (v : U64) (h : ¬ (size = 0 ∨ size > 8)) (hi : i < 8) :
    (konst v size).byte i = if i < size then some (byteAt v i) else none := by
  unfold konst
  rw [if_neg h, byte_new, getLsbD_byteMask _ hi]
  simp only [decide_eq_true_eq]

theorem byte_trunc (size : ℕ) (hi : i < 8) :
    (b.trunc size).byte i = if i < size then b.byte i else none := by
  unfold trunc
  rw [byte_new, getLsbD_and, getLsbD_byteMask _ hi]
  unfold byte
  by_cases hs : i < size
  · have hmin : i < min size 8 := lt_min hs hi
    simp [hs, hmin]
  · have hmin : ¬ i < min size 8 := fun h => hs (lt_of_lt_of_le h (min_le_left _ _))
    simp [hs, hmin]

theorem byte_bytesAt (pos size : ℕ) (hi : i < 8) :
    (b.bytesAt pos size).byte i = if i < size then b.byte (pos + i) else none := by
  unfold bytesAt
  split
  · next hpos =>
    rw [byte_unknown, byte_eq_none_of_le (by omega)]
    split <;> rfl
  · next hpos =>
    rw [byte_trunc _ hi, byte_new, getLsbD_ushiftRight, byteAt_shiftRight]
    rfl

theorem byte_merge {pos : ℕ} (hpos : pos < 8) (size : ℕ) (v : ByteConst) (hi : i < 8) :
    (b.merge pos size v).byte i =
      if pos ≤ i ∧ i < pos + size then v.byte (i - pos) else b.byte i := by
  have hm : (byteMask size <<< pos).getLsbD i = decide (pos ≤ i ∧ i < pos + size) := by
    rw [getLsbD_shiftLeft]
    by_cases hle : pos ≤ i
    · rw [getLsbD_byteMask _ (by omega)]
      simp only [hi, decide_true, Bool.true_and, hle, true_and]
      have hge : ¬ i < pos := by omega
      have hiff : i - pos < size ↔ i < pos + size := by omega
      simp [hge, hiff]
    · have hlt : i < pos := by omega
      simp [hle, hlt]
  have hv : ((v.trunc size).known <<< pos).getLsbD i =
      (decide (pos ≤ i ∧ i < pos + size) && v.known.getLsbD (i - pos)) := by
    rw [getLsbD_shiftLeft, ← byte_isSome, byte_trunc _ (by omega)]
    by_cases hle : pos ≤ i
    · have hge : ¬ i < pos := by omega
      have hiff : i - pos < size ↔ i < pos + size := by omega
      by_cases hs : i < pos + size
      · simp [hi, hge, hle, hs, hiff, byte_isSome]
      · simp [hi, hge, hle, hs, hiff]
    · have hlt : i < pos := by omega
      simp [hle, hlt]
  unfold merge
  simp only
  rw [byte_new, getLsbD_or, getLsbD_and, getLsbD_not, hm, hv, byteAt_or, byteAt_shiftLeft _ _ hi]
  have hkeep : byteAt (b.value &&& ~~~ bitsOf (byteMask size <<< pos)) i =
      if pos ≤ i ∧ i < pos + size then 0 else byteAt b.value i := by
    apply eq_of_getLsbD_eq
    intro j hj
    have hdiv : (8 * i + j) / 8 = i := by omega
    have hlt : 8 * i + j < 64 := by omega
    rw [getLsbD_byteAt, getLsbD_and, getLsbD_not, getLsbD_bitsOf _ hlt, hdiv, hm]
    split
    · next h => simp [h]
    · next h =>
      rw [getLsbD_byteAt]
      simp [h, hj, hlt]
  rw [hkeep]
  by_cases h : pos ≤ i ∧ i < pos + size
  · have hval : byteAt (v.trunc size).value (i - pos) =
        if v.known.getLsbD (i - pos) then byteAt v.value (i - pos) else 0 := by
      unfold trunc new
      simp only
      rw [byteAt_and_bitsOf _ _ (by omega), getLsbD_and, getLsbD_byteMask _ (by omega)]
      have hs : i - pos < min size 8 := by omega
      simp [hs]
    rw [if_pos h, if_pos h.1, hval, if_pos h]
    unfold byte
    cases hk : v.known.getLsbD (i - pos) <;> simp [h, hi]
  · rw [if_neg h, if_neg h]
    unfold byte
    have hzero : (if pos ≤ i then byteAt (v.trunc size).value (i - pos) else 0) = 0 := by
      split
      · next hle =>
        have hge : ¬ i - pos < min size 8 := by omega
        unfold trunc new
        simp only
        rw [byteAt_and_bitsOf _ _ (by omega), getLsbD_and, getLsbD_byteMask _ (by omega)]
        simp [hge]
      · rfl
    rw [hzero]
    simp [h, hi]

theorem byte_intersect (b c : ByteConst) (hi : i < 8) :
    (b.intersect c).byte i = if b.byte i = c.byte i then b.byte i else none := by
  unfold intersect
  simp only
  rw [byte_new, getLsbD_and, getLsbD_and, getLsbD_not,
    getLsbD_nonzeroBytes _ hi, byteAt_and_bitsOf _ _ hi, getLsbD_and, byteAt_xor]
  unfold byte
  cases hb : b.known.getLsbD i
  · cases hc : c.known.getLsbD i <;> simp
  · cases hc : c.known.getLsbD i
    · simp
    · by_cases heq : byteAt b.value i = byteAt c.value i
      · simp [heq, hi]
      · simp [heq, hi]

theorem get_eq_some {x : U64} (h : b.get size = some x) :
    0 < size ∧ size ≤ 8 ∧ ∀ i < 8, i < size → b.byte i = some (byteAt x i) := by
  unfold get at h
  split at h
  · cases h
  · next hsize =>
    split at h
    · next hknown =>
      obtain rfl := Option.some.inj h
      refine ⟨by omega, by omega, fun i hi his => ?_⟩
      have hk := congrArg (fun m => m.getLsbD i) hknown
      simp only [getLsbD_and, getLsbD_byteMask size hi, his, decide_true, Bool.and_true] at hk
      unfold byte
      rw [if_pos hk]
      congr 1
      apply byteAt_ext
      intro j hj
      have hmask : (bitMask size).getLsbD (8 * i + j) = true := by
        rw [getLsbD_bitMask size (by omega)]
        exact decide_eq_true (by omega)
      rw [getLsbD_and, hmask, Bool.and_true]
    · cases h

theorem byteAt_of_get {x : U64} (h : b.get size = some x) (hi : i < 8)
    (hs : size ≤ i) : byteAt x i = 0 := by
  unfold get at h
  split at h
  · cases h
  · split at h
    · obtain rfl := Option.some.inj h
      apply eq_of_getLsbD_eq
      intro j hj
      have hge : ¬ 8 * i + j < size * 8 := by omega
      rw [getLsbD_byteAt, getLsbD_and, getLsbD_bitMask size (by omega)]
      simp [hge]
    · cases h

end Bytes

end ByteConst

end ByteConsts
