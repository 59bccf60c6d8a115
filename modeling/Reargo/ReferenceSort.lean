import Reargo.OrderedMap
import Reargo.PcodeModel
import Reargo.CountingSort
import Mathlib.Data.Nat.Size

/-!
# Sorting addresses with their indices

Few keys, or keys far apart, are sorted by comparison; many keys within `2 ^ 32` of each
other by a radix sort of up to twelve bits a pass. Either way: by key, then by index.
-/
namespace ReferenceSort

open PcodeModel CountingSort List

abbrev Keyed := U64 × ℕ

def keyLe (a b : Keyed) : Bool :=
  a.1 < b.1 ∨ a.1 = b.1 ∧ a.2 ≤ b.2

/-- The bits of the key, counted from the least key, that a pass sorts by. -/
def digitOf (least : U64) (shift digit : ℕ) (e : Keyed) : ℕ :=
  ((e.1 - least).toNat >>> shift) &&& (2 ^ digit - 1)

/-- The passes from the lowest digit up; each fills the order before it. -/
def radixPasses (least : U64) (digit : ℕ) : ℕ → List Keyed × List Keyed → List Keyed × List Keyed
  | 0, st => st
  | p + 1, st =>
    let (order, buf) := radixPasses least digit p st
    (pass (digitOf least (p * digit) digit) (2 ^ digit) buf order, order)

def least (order : List Keyed) : U64 :=
  order.foldl (fun lo e => min lo e.1) (BitVec.allOnes 64)

def most (order : List Keyed) : U64 :=
  order.foldl (fun hi e => max hi e.1) 0

def span (order : List Keyed) : ℕ :=
  (most order - least order).toNat

/-- Passes of up to twelve bits. -/
def passCount (bits : ℕ) : ℕ :=
  (bits + 11) / 12

def digitBits (bits : ℕ) : ℕ :=
  (bits + max (passCount bits) 1 - 1) / max (passCount bits) 1

def sortKeyed (order : List Keyed) : List Keyed :=
  if order.length < 2 ^ 12 ∨ most order < least order ∨ span order >>> 32 ≠ 0 then
    order.mergeSort keyLe
  else
    let bits := Nat.size (span order)
    (radixPasses (least order) (digitBits bits) (passCount bits)
      (order, List.replicate order.length (0, 0))).1

def KeyLt (a b : Keyed) : Prop :=
  a.1 < b.1 ∨ a.1 = b.1 ∧ a.2 < b.2

theorem digitOf_lt (least : U64) (shift digit : ℕ) (e : Keyed) :
    digitOf least shift digit e < 2 ^ digit := by
  unfold digitOf
  rw [Nat.and_two_pow_sub_one_eq_mod]
  exact Nat.mod_lt _ (Nat.two_pow_pos digit)

def lowBits (least : U64) (bits : ℕ) (e : Keyed) : ℕ :=
  (e.1 - least).toNat % 2 ^ bits

theorem lowBits_add (least : U64) (shift digit : ℕ) (e : Keyed) :
    lowBits least (shift + digit) e =
      lowBits least shift e + 2 ^ shift * digitOf least shift digit e := by
  unfold lowBits digitOf
  rw [Nat.and_two_pow_sub_one_eq_mod, Nat.shiftRight_eq_div_pow, Nat.pow_add, Nat.mod_mul]

/-- By the bits the passes so far have sorted by, then by index. -/
def LowLt (least : U64) (bits : ℕ) (a b : Keyed) : Prop :=
  lowBits least bits a < lowBits least bits b ∨
    lowBits least bits a = lowBits least bits b ∧ a.2 < b.2

theorem lowLt_of_digit {least : U64} {shift digit : ℕ} {a b : Keyed}
    (h : digitOf least shift digit a < digitOf least shift digit b ∨
      digitOf least shift digit a = digitOf least shift digit b ∧ LowLt least shift a b) :
    LowLt least (shift + digit) a b := by
  have hlow : lowBits least shift a < 2 ^ shift := Nat.mod_lt _ (Nat.two_pow_pos shift)
  unfold LowLt
  rw [lowBits_add, lowBits_add]
  rcases h with hlt | ⟨heq, hlt | ⟨hsame, hidx⟩⟩
  · have hmul : 2 ^ shift * (digitOf least shift digit a + 1) ≤
        2 ^ shift * digitOf least shift digit b := Nat.mul_le_mul_left _ hlt
    rw [mul_add, mul_one] at hmul
    exact .inl (by omega)
  · rw [heq]
    exact .inl (by omega)
  · rw [heq, hsame]
    exact .inr ⟨rfl, hidx⟩

variable {order : List Keyed}

theorem radixPasses_spec {least : U64} {digit : ℕ} (p : ℕ) {buf : List Keyed}
    (hbuf : buf.length = order.length) :
    ((radixPasses least digit p (order, buf)).1).Perm order ∧
      (radixPasses least digit p (order, buf)).2.length = order.length ∧
      (order.Pairwise (fun a b => a.2 < b.2) →
        ((radixPasses least digit p (order, buf)).1).Pairwise (LowLt least (p * digit))) := by
  induction p with
  | zero =>
    refine ⟨List.Perm.refl _, hbuf, fun h => h.imp fun hidx => .inr ⟨?_, hidx⟩⟩
    unfold lowBits
    rw [zero_mul, Nat.pow_zero, Nat.mod_one, Nat.mod_one]
  | succ p ih =>
    obtain ⟨hperm, hlen, hsorted⟩ := ih
    unfold radixPasses
    simp only
    rw [pass_eq_buckets (fun e _ => digitOf_lt least (p * digit) digit e)
      (hlen.trans hperm.length_eq.symm)]
    refine ⟨(buckets_perm fun e _ => digitOf_lt least (p * digit) digit e).trans hperm,
      hperm.length_eq, fun hidx => ?_⟩
    rw [Nat.succ_mul]
    exact (buckets_pairwise _ (hsorted hidx)).imp lowLt_of_digit

theorem keyLe_iff {a b : Keyed} : keyLe a b = true ↔ a.1 < b.1 ∨ a.1 = b.1 ∧ a.2 ≤ b.2 := by
  unfold keyLe
  rw [decide_eq_true_iff]

theorem mergeSort_keyLe_pairwise (order : List Keyed) :
    (order.mergeSort keyLe).Pairwise fun a b => keyLe a b = true := by
  refine pairwise_mergeSort (fun a b c hab hbc => ?_) (fun a b => ?_) order
  · rw [keyLe_iff] at hab hbc ⊢
    rcases hab with hab | ⟨hab, hab'⟩ <;> rcases hbc with hbc | ⟨hbc, hbc'⟩
    · exact .inl (lt_trans hab hbc)
    · exact .inl (hbc ▸ hab)
    · exact .inl (hab ▸ hbc)
    · exact .inr ⟨hab.trans hbc, hab'.trans hbc'⟩
  · rw [Bool.or_eq_true, keyLe_iff, keyLe_iff]
    rcases lt_trichotomy a.1 b.1 with hlt | heq | hgt
    · exact .inl (.inl hlt)
    · rcases le_total a.2 b.2 with hle | hle
      · exact .inl (.inr ⟨heq, hle⟩)
      · exact .inr (.inr ⟨heq.symm, hle⟩)
    · exact .inr (.inl hgt)

theorem foldl_min_le (order : List Keyed) (lo : U64) :
    order.foldl (fun lo e => min lo e.1) lo ≤ lo ∧
      ∀ e ∈ order, order.foldl (fun lo e => min lo e.1) lo ≤ e.1 := by
  induction order generalizing lo with
  | nil => exact ⟨le_refl lo, fun e he => absurd he not_mem_nil⟩
  | cons e order ih =>
    obtain ⟨hlo, hall⟩ := ih (min lo e.1)
    refine ⟨hlo.trans (min_le_left _ _), fun e' he' => ?_⟩
    rcases mem_cons.mp he' with rfl | he'
    · exact hlo.trans (min_le_right _ _)
    · exact hall e' he'

theorem le_foldl_max (order : List Keyed) (hi : U64) :
    hi ≤ order.foldl (fun hi e => max hi e.1) hi ∧
      ∀ e ∈ order, e.1 ≤ order.foldl (fun hi e => max hi e.1) hi := by
  induction order generalizing hi with
  | nil => exact ⟨le_refl hi, fun e he => absurd he not_mem_nil⟩
  | cons e order ih =>
    obtain ⟨hhi, hall⟩ := ih (max hi e.1)
    refine ⟨(le_max_left _ _).trans hhi, fun e' he' => ?_⟩
    rcases mem_cons.mp he' with rfl | he'
    · exact (le_max_right _ _).trans hhi
    · exact hall e' he'

theorem toNat_sub_of_le {a b : U64} (h : b ≤ a) : (a - b).toNat = a.toNat - b.toNat :=
  BitVec.toNat_sub_of_le h

theorem sub_lt_span {e : Keyed} (he : e ∈ order) :
    least order ≤ e.1 ∧ (e.1 - least order).toNat < 2 ^ Nat.size (span order) := by
  have hlo : least order ≤ e.1 := (foldl_min_le order _).2 e he
  have hhi : e.1 ≤ most order := (le_foldl_max order _).2 e he
  refine ⟨hlo, lt_of_le_of_lt ?_ (Nat.lt_size_self _)⟩
  unfold span
  rw [toNat_sub_of_le hlo, toNat_sub_of_le (hlo.trans hhi)]
  exact Nat.sub_le_sub_right hhi _

theorem bits_le_passes (bits : ℕ) : bits ≤ passCount bits * digitBits bits := by
  unfold digitBits passCount
  by_cases hzero : bits = 0
  · omega
  · have hpos : 1 ≤ (bits + 11) / 12 := by omega
    rw [max_eq_left hpos]
    generalize (bits + 11) / 12 = passes at hpos
    have hdiv := Nat.div_add_mod (bits + passes - 1) passes
    have hmod := Nat.mod_lt (bits + passes - 1) hpos
    omega

theorem keyLt_of_lowLt {least : U64} {bits : ℕ} {a b : Keyed} (ha : least ≤ a.1) (hb : least ≤ b.1)
    (ha' : (a.1 - least).toNat < 2 ^ bits) (hb' : (b.1 - least).toNat < 2 ^ bits)
    (h : LowLt least bits a b) : KeyLt a b := by
  have hla : least.toNat ≤ a.1.toNat := ha
  have hlb : least.toNat ≤ b.1.toNat := hb
  unfold LowLt lowBits at h
  rw [Nat.mod_eq_of_lt ha', Nat.mod_eq_of_lt hb', toNat_sub_of_le ha, toNat_sub_of_le hb] at h
  rcases h with hlt | ⟨heq, hidx⟩
  · have hnat : a.1.toNat < b.1.toNat := by omega
    exact .inl hnat
  · exact .inr ⟨BitVec.eq_of_toNat_eq (by omega), hidx⟩

theorem sortKeyed_perm (order : List Keyed) : (sortKeyed order).Perm order := by
  unfold sortKeyed
  split
  · exact mergeSort_perm order keyLe
  · exact (radixPasses_spec _ (by rw [length_replicate])).1

theorem sortKeyed_pairwise (hidx : order.Pairwise fun a b => a.2 < b.2) :
    (sortKeyed order).Pairwise KeyLt := by
  unfold sortKeyed
  split
  · have hnodup : ((order.mergeSort keyLe).map Prod.snd).Nodup := by
      refine ((mergeSort_perm order keyLe).map Prod.snd).nodup_iff.mpr ?_
      exact pairwise_map.mpr (hidx.imp ne_of_lt)
    refine ((mergeSort_keyLe_pairwise order).and (pairwise_map.mp hnodup)).imp ?_
    intro a b ⟨hle, hne⟩
    rcases keyLe_iff.mp hle with hlt | ⟨heq, hle⟩
    · exact .inl hlt
    · exact .inr ⟨heq, lt_of_le_of_ne hle hne⟩
  · obtain ⟨hperm, -, hsorted⟩ := radixPasses_spec _ (length_replicate (a := (0, 0)))
    refine (hsorted hidx).imp_of_mem fun ha hb hlt => ?_
    obtain ⟨hla, hspan⟩ := sub_lt_span (hperm.mem_iff.mp ha)
    obtain ⟨hlb, hspan'⟩ := sub_lt_span (hperm.mem_iff.mp hb)
    have hroom := Nat.pow_le_pow_right Nat.two_pos (bits_le_passes (Nat.size (span order)))
    exact keyLt_of_lowLt hla hlb (hspan.trans_le hroom) (hspan'.trans_le hroom) hlt

theorem sortKeyed_filter (hidx : order.Pairwise fun a b => a.2 < b.2)
    (k : U64) : (sortKeyed order).filter (fun e => e.1 = k) = order.filter fun e => e.1 = k := by
  refine ((sortKeyed_perm order).filter _).eq_of_pairwise (fun a b _ _ hab hba => ?_)
    (((sortKeyed_pairwise hidx).filter _).imp_of_mem fun ha hb hab => ?_) (hidx.filter _)
  · exact absurd hab (lt_asymm hba)
  · rcases hab with hlt | ⟨-, hlt⟩
    · have hka := of_decide_eq_true (mem_filter.mp ha).2
      have hkb := of_decide_eq_true (mem_filter.mp hb).2
      rw [hka, hkb] at hlt
      exact absurd hlt (lt_irrefl k)
    · exact hlt

end ReferenceSort
