import Reargo.ByteEval
import Reargo.ValueSets

/-!
# Abstract arithmetic and slots

The operations on abstract values and the slots that hold them: a register's known bytes, or
an abstract value of its low bytes. What a slot says of a word stays true through every
operation, and a join says what both of its slots say.
-/
namespace AbstractSlots

open PcodeModel ByteConsts ByteEval ValueSets Finset
open AbstractValue (Describes Normal)

def normalize : AbstractValue → AbstractValue
  | .set s =>
    if h : s.card = 1 then .const (s.min' (card_pos.mp (h ▸ Nat.one_pos)))
    else if s = ∅ then .bot else .set s
  | .range lo hi => if lo = hi then .const lo else .range lo hi
  | v => v

def FitsIn (s : Finset U64) (m : U64) : Prop := ∀ x ∈ s, x &&& m = x

instance (s : Finset U64) (m : U64) : Decidable (FitsIn s m) := Finset.decidableDforallFinset

def fit (v : AbstractValue) (size : ℕ) : AbstractValue :=
  let m := bitMask size
  normalize (match v with
    | .const c => .const (c &&& m)
    | .set s => if FitsIn s m then .set s else .set (s.image (· &&& m))
    | .range lo hi => if hi ≤ m then .range lo hi else .top
    | v => v)

/-- The sign of the low `size` bytes carried into the bytes above. -/
def extend (size : ℕ) (x : U64) : U64 :=
  let bits := min size 8 * 8
  if bits ≥ 64 then x else EmulatorOps.signExtendFrom bits x

def sign (size : ℕ) (x : U64) : Bool :=
  size < 8 && x &&& ((1 : U64) <<< ((size * 8 + 63) % 64)) ≠ 0

def sext (v : AbstractValue) (size : ℕ) : AbstractValue :=
  match v with
  | .const c => .const (extend size c)
  | .set s => .set (s.image (extend size))
  | .range lo hi =>
    if sign size lo = sign size hi then .range (extend size lo) (extend size hi) else .top
  | v => v

/-- `a + b` cut to `size` bytes; a range that wraps is unknown. -/
def add (a b : AbstractValue) (size : ℕ) : AbstractValue :=
  let m := bitMask size
  let shifted (x lo hi : U64) : AbstractValue :=
    let l := (lo + x) &&& m
    let h := (hi + x) &&& m
    if l ≤ h ∧ h - l = hi - lo then .range l h else .top
  normalize (match a, b with
    | .bot, _ => .bot
    | _, .bot => .bot
    | .top, _ => .top
    | _, .top => .top
    | .const x, .const y => .const ((x + y) &&& m)
    | .const x, .range lo hi => shifted x lo hi
    | .range lo hi, .const x => shifted x lo hi
    | .range la ha, .range lb hb =>
      if la.toNat + lb.toNat < 2 ^ 64 ∧ ha.toNat + hb.toNat < 2 ^ 64 ∧ ha + hb ≤ m then
        .range (la + lb) (ha + hb)
      else .top
    | .const x, .set s => .set (s.image fun v => (v + x) &&& m)
    | .set s, .const x => .set (s.image fun v => (v + x) &&& m)
    | _, _ => .top)

inductive Slot where
  | bytes (b : ByteConst)
  | low (size : ℕ) (v : AbstractValue)
  deriving DecidableEq

namespace Slot

def known : Slot → ByteConst
  | bytes b => b
  | low _ _ => .unknown

def read (pos size : ℕ) : Slot → AbstractValue
  | bytes b => ((b.bytesAt pos size).get size).elim .top .const
  | low n v => if pos = 0 ∧ size ≤ n then fit v size else .top

/-- The widest low part a slot pins. -/
def view : Slot → Option (ℕ × AbstractValue)
  | bytes b => [8, 4, 2, 1].findSome? fun w => (b.get w).map fun v => (w, .const v)
  | low n v => some (n, v)

def joinViews (a b : ℕ × AbstractValue) : ℕ × AbstractValue :=
  let w := min a.1 b.1
  (w, normalize (AbstractValue.join (fit a.2 w) (fit b.2 w)))

def joinBytes (a b : Slot) : Option Slot :=
  let both := a.known.intersect b.known
  if both.isUnknown then none else some (bytes both)

/-- The join at a block with several predecessors; `none` when nothing is known. -/
def join (a b : Slot) : Option Slot :=
  if a = b then some a
  else match a.view, b.view with
    | some va, some vb =>
      match joinViews va vb with
      | (w, .set s) => some (low w (.set s))
      | (w, .range lo hi) => some (low w (.range lo hi))
      | _ => joinBytes a b
    | _, _ => joinBytes a b

end Slot

theorem describes_normalize {v : AbstractValue} {x : U64} :
    Describes (normalize v) x ↔ Describes v x := by
  cases v with
  | set s =>
    by_cases h : s.card = 1
    · obtain ⟨a, rfl⟩ := card_eq_one.mp h
      simp [normalize, Describes]
    · rw [normalize, dif_neg h]
      split
      · next h => simp [Describes, h]
      · rfl
  | range lo hi =>
    by_cases h : lo = hi
    · rw [normalize, if_pos h, ← h]
      exact ⟨fun h => h ▸ ⟨le_refl _, le_refl _⟩, fun h => le_antisymm h.2 h.1⟩
    · rw [normalize, if_neg h]
  | bot => rfl
  | const c => rfl
  | top => rfl

theorem bitMask_toNat (n : ℕ) : (bitMask n).toNat = 256 ^ min n 8 - 1 := by
  unfold bitMask
  split
  · next h =>
    rw [min_eq_right h]
    rfl
  · next h =>
    interval_cases n <;> rfl

theorem and_bitMask_toNat (x : U64) (n : ℕ) : (x &&& bitMask n).toNat = x.toNat % 256 ^ min n 8 := by
  rw [BitVec.toNat_and, bitMask_toNat, show 256 = 2 ^ 8 from rfl, ← pow_mul,
    Nat.and_two_pow_sub_one_eq_mod]

theorem le_bitMask_iff {x : U64} {n : ℕ} : x ≤ bitMask n ↔ x.toNat < 256 ^ min n 8 := by
  have hpos : 0 < 256 ^ min n 8 := by positivity
  rw [BitVec.le_def, bitMask_toNat]
  omega

theorem and_bitMask_of_le {x : U64} {n : ℕ} (h : x ≤ bitMask n) : x &&& bitMask n = x := by
  apply BitVec.eq_of_toNat_eq
  rw [and_bitMask_toNat, Nat.mod_eq_of_lt (le_bitMask_iff.mp h)]

theorem and_bitMask_le (x : U64) (n : ℕ) : x &&& bitMask n ≤ bitMask n := by
  rw [le_bitMask_iff, and_bitMask_toNat]
  exact Nat.mod_lt _ (by positivity)

theorem describes_fit {v : AbstractValue} {x : U64} (n : ℕ) (h : Describes v x) :
    Describes (fit v n) (x &&& bitMask n) := by
  unfold fit
  refine describes_normalize.mpr ?_
  cases v with
  | const c => exact congrArg (· &&& bitMask n) h
  | set s =>
    by_cases hall : FitsIn s (bitMask n)
    · simp only [if_pos hall]
      rw [hall x h]
      exact h
    · simp only [if_neg hall]
      exact mem_image_of_mem (· &&& bitMask n) h
  | range lo hi =>
    by_cases hhi : hi ≤ bitMask n
    · simp only [if_pos hhi]
      rw [and_bitMask_of_le (h.2.trans hhi)]
      exact h
    · simp only [if_neg hhi]
      trivial
  | bot => exact h
  | top => trivial

/-- A range moved by a constant keeps its length, or is given up. -/
theorem shifted_bounds {x v lo hi : U64} {n : ℕ} (hv : lo ≤ v ∧ v ≤ hi)
    (hle : (lo + x) &&& bitMask n ≤ (hi + x) &&& bitMask n)
    (hlen : ((hi + x) &&& bitMask n) - ((lo + x) &&& bitMask n) = hi - lo) :
    (lo + x) &&& bitMask n ≤ (v + x) &&& bitMask n ∧
      (v + x) &&& bitMask n ≤ (hi + x) &&& bitMask n := by
  have hlohi := hv.1.trans hv.2
  have hlen := congrArg BitVec.toNat hlen
  rw [BitVec.toNat_sub_of_le hle, BitVec.toNat_sub_of_le hlohi] at hlen
  have htop := le_bitMask_iff.mp (and_bitMask_le (hi + x) n)
  have hdvd : 256 ^ min n 8 ∣ 2 ^ 64 := by
    rw [show 256 = 2 ^ 8 from rfl, ← pow_mul]
    exact pow_dvd_pow 2 (by omega)
  have hsum (u : U64) : ((u + x) &&& bitMask n).toNat = (u.toNat + x.toNat) % 256 ^ min n 8 := by
    rw [and_bitMask_toNat, BitVec.toNat_add, Nat.mod_mod_of_dvd _ hdvd]
  simp only [BitVec.le_def] at hv hle hlohi ⊢
  rw [hsum] at htop
  rw [hsum, hsum] at hlen hle
  rw [hsum, hsum, hsum]
  -- the distance from the lower bound is added to what the lower bound is moved to
  have hmid : (v.toNat + x.toNat) % 256 ^ min n 8 =
      (lo.toNat + x.toNat) % 256 ^ min n 8 + (v.toNat - lo.toNat) := by
    rw [show v.toNat + x.toNat = lo.toNat + x.toNat + (v.toNat - lo.toNat) by omega, Nat.add_mod]
    have hnear : v.toNat - lo.toNat ≤ hi.toNat - lo.toNat := by omega
    generalize (hi.toNat + x.toNat) % 256 ^ min n 8 = top at hlen hle htop
    generalize hlow : (lo.toNat + x.toNat) % 256 ^ min n 8 = low at hlen hle ⊢
    rw [Nat.mod_eq_of_lt (show v.toNat - lo.toNat < 256 ^ min n 8 by omega)]
    exact Nat.mod_eq_of_lt (by omega)
  rw [hmid]
  generalize (hi.toNat + x.toNat) % 256 ^ min n 8 = top at hlen hle htop ⊢
  generalize (lo.toNat + x.toNat) % 256 ^ min n 8 = low at hlen hle ⊢
  omega

theorem describes_add {a b : AbstractValue} {x y : U64} (n : ℕ) (ha : Describes a x)
    (hb : Describes b y) : Describes (add a b n) ((x + y) &&& bitMask n) := by
  have hshift {lo hi u v : U64} (hv : lo ≤ v ∧ v ≤ hi) :
      Describes (if (lo + u) &&& bitMask n ≤ (hi + u) &&& bitMask n ∧
        ((hi + u) &&& bitMask n) - ((lo + u) &&& bitMask n) = hi - lo then
          .range ((lo + u) &&& bitMask n) ((hi + u) &&& bitMask n) else .top)
        ((v + u) &&& bitMask n) := by
    split
    · next h => exact shifted_bounds hv h.1 h.2
    · trivial
  unfold add
  refine describes_normalize.mpr ?_
  cases a with
  | bot => exact ha
  | top => cases b <;> first | exact hb | trivial
  | const c =>
    obtain rfl : x = c := ha
    cases b with
    | bot => exact hb
    | top => trivial
    | const d => exact congrArg (fun y => (x + y) &&& bitMask n) hb
    | set s =>
      rw [BitVec.add_comm]
      exact mem_image_of_mem (fun v => (v + x) &&& bitMask n) hb
    | range lo hi =>
      rw [BitVec.add_comm]
      exact hshift hb
  | set s =>
    cases b with
    | bot => exact hb
    | const d =>
      obtain rfl : y = d := hb
      exact mem_image_of_mem (fun v => (v + y) &&& bitMask n) ha
    | _ => trivial
  | range lo hi =>
    cases b with
    | bot => exact hb
    | const d =>
      obtain rfl : y = d := hb
      exact hshift ha
    | range lo' hi' =>
      simp only
      split
      · next h =>
        obtain ⟨hlo, hhi, hm⟩ := h
        have hbounds : lo + lo' ≤ x + y ∧ x + y ≤ hi + hi' := by
          simp only [Describes, BitVec.le_def] at ha hb
          simp only [BitVec.le_def, BitVec.toNat_add]
          omega
        rw [and_bitMask_of_le (hbounds.2.trans hm)]
        exact hbounds
      · trivial
    | _ => trivial

section Words

variable {n : ℕ}

theorem ext_and_bitMask (hn : n ≤ 8) (x : U64) :
    x &&& bitMask n = (x.setWidth (8 * n)).setWidth 64 := by
  apply BitVec.eq_of_toNat_eq
  rw [and_bitMask_toNat, min_eq_left hn, BitVec.toNat_setWidth, BitVec.toNat_setWidth,
    pow_mul]
  exact (Nat.mod_eq_of_lt ((Nat.mod_le _ _).trans_lt x.isLt)).symm

theorem ext_le_bitMask (hn : n ≤ 8) (a : BitVec (8 * n)) : a.setWidth 64 ≤ bitMask n := by
  have hfit := a.isLt
  rw [pow_mul] at hfit
  rw [le_bitMask_iff, min_eq_left hn, BitVec.toNat_setWidth]
  exact (Nat.mod_le _ _).trans_lt hfit

theorem ext_setWidth (hn : n ≤ 8) {x : U64} (h : x ≤ bitMask n) :
    (x.setWidth (8 * n)).setWidth 64 = x := by
  rw [← ext_and_bitMask hn, and_bitMask_of_le h]

theorem ext_add (hn : n ≤ 8) (a b : BitVec (8 * n)) :
    (a.setWidth 64 + b.setWidth 64) &&& bitMask n = (a + b).setWidth 64 := by
  rw [ext_and_bitMask hn, BitVec.setWidth_add _ _ (by omega),
    BitVec.setWidth_setWidth_of_le _ (by omega), BitVec.setWidth_setWidth_of_le _ (by omega),
    BitVec.setWidth_eq, BitVec.setWidth_eq]

theorem extend_ext (hn : n ≤ 8) (a : BitVec (8 * n)) :
    extend n (a.setWidth 64) = a.signExtend 64 := by
  simp only [extend, min_eq_left hn]
  split
  · next h =>
    obtain rfl : n = 8 := by omega
    rw [BitVec.setWidth_eq, BitVec.signExtend_eq]
  · exact EmulatorSemantics.signExtendFrom_ext hn a

theorem sign_ext (hpos : 0 < n) (hn : n < 8) (a : BitVec (8 * n)) :
    sign n (a.setWidth 64) = a.msb := by
  rw [sign, decide_eq_true hn, Bool.true_and, BitVec.msb_eq_getLsbD_last,
    show 8 * n - 1 = n * 8 - 1 by omega, show (n * 8 + 63) % 64 = n * 8 - 1 by omega]
  have htwo : ((1 : U64) <<< (n * 8 - 1)) = BitVec.twoPow 64 (n * 8 - 1) :=
    (BitVec.twoPow_eq ..).symm
  rw [htwo, BitVec.and_twoPow, BitVec.getLsbD_setWidth]
  have hin : n * 8 - 1 < 64 := by omega
  have hone : BitVec.twoPow 64 (n * 8 - 1) ≠ 0 := fun h => by
    have := congrArg (fun w => w.getLsbD (n * 8 - 1)) h
    simp [hin] at this
  cases hbit : a.getLsbD (n * 8 - 1)
  · simp
  · simpa [hin] using hone

/-- Values of one sign keep their order when extended. -/
theorem signExtend_mono {a b : BitVec (8 * n)} (hmsb : a.msb = b.msb) (h : a.toNat ≤ b.toNat)
    (hn : n ≤ 8) : a.signExtend 64 ≤ b.signExtend 64 := by
  rw [BitVec.le_def, BitVec.toNat_signExtend, BitVec.toNat_signExtend, hmsb]
  have ha := WidthArithmetic.ext_toNat (show 8 * n ≤ 64 by omega) a
  have hb := WidthArithmetic.ext_toNat (show 8 * n ≤ 64 by omega) b
  omega

end Words

theorem fit_range {v : AbstractValue} {lo hi : U64} {n : ℕ} (h : fit v n = .range lo hi) :
    hi ≤ bitMask n := by
  have hnorm (w : AbstractValue) (h : normalize w = .range lo hi) : w = .range lo hi := by
    cases w with
    | set s =>
      rw [normalize] at h
      split_ifs at h
    | range a b =>
      rw [normalize] at h
      split_ifs at h
      exact h
    | _ => exact h
  unfold fit at h
  have h := hnorm _ h
  cases v with
  | set s =>
    simp only at h
    split_ifs at h
  | range a b =>
    simp only at h
    split_ifs at h with hle
    cases h
    exact hle
  | _ => cases h

theorem extended_bounds {n : ℕ} (hpos : 0 < n) (hn : n ≤ 8) {l a u : BitVec (8 * n)}
    (hl : l.toNat ≤ a.toNat) (hu : a.toNat ≤ u.toNat)
    (hsign : sign n (l.setWidth 64) = sign n (u.setWidth 64)) :
    l.signExtend 64 ≤ a.signExtend 64 ∧ a.signExtend 64 ≤ u.signExtend 64 := by
  rcases hn.eq_or_lt with rfl | hlt
  · simpa [BitVec.le_def] using ⟨hl, hu⟩
  · rw [sign_ext hpos hlt, sign_ext hpos hlt] at hsign
    -- a value between two of one sign has it too
    have hmsb : a.msb = l.msb := by
      rw [BitVec.msb_eq_decide, BitVec.msb_eq_decide, decide_eq_decide] at hsign ⊢
      omega
    exact ⟨signExtend_mono hmsb.symm hl hn, signExtend_mono (hmsb.trans hsign) hu hn⟩

theorem describes_sext {v : AbstractValue} {n : ℕ} (hpos : 0 < n) (hn : n ≤ 8) (a : BitVec (8 * n))
    (h : Describes (fit v n) (a.setWidth 64)) : Describes (sext (fit v n) n) (a.signExtend 64) := by
  have hfit (lo hi : U64) (h : fit v n = .range lo hi) : hi ≤ bitMask n := fit_range h
  generalize fit v n = w at h hfit
  cases w with
  | const c => exact extend_ext hn a ▸ congrArg (extend n) h
  | set s => exact extend_ext hn a ▸ mem_image_of_mem (extend n) h
  | range lo hi =>
    obtain ⟨l, rfl⟩ : ∃ l : BitVec (8 * n), l.setWidth 64 = lo :=
      ⟨_, ext_setWidth hn (h.1.trans (ext_le_bitMask hn a))⟩
    obtain ⟨u, rfl⟩ : ∃ u : BitVec (8 * n), u.setWidth 64 = hi :=
      ⟨_, ext_setWidth hn (hfit _ _ rfl)⟩
    have hin : 8 * n ≤ 64 := by omega
    simp only [Describes, BitVec.le_def, WidthArithmetic.ext_toNat hin] at h
    unfold sext
    simp only
    split
    · next hsign =>
      rw [extend_ext hn, extend_ext hn]
      exact extended_bounds hpos hn h.1 h.2 hsign
    · trivial
  | bot => exact h
  | top => trivial

/-- Few points, in order: what normalizing puts in normal form. -/
def Few : AbstractValue → Prop
  | .set s => s.card ≤ setWidenThreshold
  | .range lo hi => lo ≤ hi
  | _ => True

theorem Few.of_normal {v : AbstractValue} (h : Normal v) : Few v := by
  cases v with
  | set s => exact h.2
  | range lo hi => exact le_of_lt h
  | _ => trivial

theorem normal_normalize {v : AbstractValue} (h : Few v) : Normal (normalize v) := by
  cases v with
  | set s =>
    rw [normalize]
    split_ifs with hone hempty
    · trivial
    · trivial
    · have := card_pos.mpr (nonempty_iff_ne_empty.mpr hempty)
      exact ⟨by omega, h⟩
  | range lo hi =>
    rw [normalize]
    split_ifs with heq
    · trivial
    · exact lt_of_le_of_ne h heq
  | _ => trivial

theorem normal_fit {v : AbstractValue} (n : ℕ) (h : Normal v) : Normal (fit v n) := by
  refine normal_normalize ?_
  cases v with
  | set s =>
    simp only
    split_ifs
    · exact h.2
    · exact card_image_le.trans h.2
  | range lo hi =>
    simp only
    split_ifs
    · exact le_of_lt h
    · trivial
  | _ => trivial

theorem normal_add {a b : AbstractValue} (n : ℕ) (ha : Normal a) (hb : Normal b) :
    Normal (add a b n) := by
  refine normal_normalize ?_
  have hshift {lo hi u : U64} : Few (if (lo + u) &&& bitMask n ≤ (hi + u) &&& bitMask n ∧
      ((hi + u) &&& bitMask n) - ((lo + u) &&& bitMask n) = hi - lo then
        .range ((lo + u) &&& bitMask n) ((hi + u) &&& bitMask n) else .top) := by
    split_ifs with h
    · exact h.1
    · trivial
  cases a with
  | bot => trivial
  | top => cases b <;> trivial
  | const x =>
    cases b with
    | set s => exact card_image_le.trans hb.2
    | range lo hi => exact hshift
    | _ => trivial
  | set s =>
    cases b with
    | const y => exact card_image_le.trans ha.2
    | _ => trivial
  | range la ha' =>
    cases b with
    | const y => exact hshift
    | range lb hb' =>
      simp only
      split_ifs with h
      · have hlt : la < ha' := ha
        have hlt' : lb < hb' := hb
        simp only [Few, BitVec.le_def, BitVec.lt_def, BitVec.toNat_add] at hlt hlt' h ⊢
        omega
      · trivial
    | _ => trivial

/-- Sums, cuts and extensions describe those of the words; `sext` is taken of the value fitted
to its width. -/
theorem arithmetic_describes {n k : ℕ} (hpos : 0 < n) (hn : n ≤ 8) (hk : k ≤ 8)
    {u v : AbstractValue} (hu : Normal u) (hv : Normal v) {a b : BitVec (8 * n)}
    (ha : Describes u (a.setWidth 64)) (hb : Describes v (b.setWidth 64)) :
    Describes (add u v n) ((a + b).setWidth 64) ∧ Normal (add u v n) ∧
      Describes (fit u k) ((a.setWidth (8 * k)).setWidth 64) ∧ Normal (fit u k) ∧
      Describes (sext (fit u n) n) (a.signExtend 64) := by
  refine ⟨ext_add hn a b ▸ describes_add n ha hb, normal_add n hu hv, ?_, normal_fit k hu, ?_⟩
  · have := describes_fit k ha
    rwa [ext_and_bitMask hk, BitVec.setWidth_setWidth_of_le a (show 8 * k ≤ 64 by omega)] at this
  · have := describes_fit n ha
    rw [and_bitMask_of_le (ext_le_bitMask hn a)] at this
    exact describes_sext hpos hn a this

theorem arithmetic_describes_byte :
    Describes (add (.range 0x7e 0x7f) (.set {1, 2}) 1) ((0x80 : BitVec 8).setWidth 64) ∧
      Normal (add (.range 0x7e 0x7f) (.set {1, 2}) 1) ∧
      Describes (fit (.range 0x7e 0x7f) 2) (((0x7f : BitVec 8).setWidth 16).setWidth 64) ∧
      Normal (fit (.range 0x7e 0x7f) 2) ∧
      Describes (sext (fit (.range 0x7e 0x7f) 1) 1) ((0x7f : BitVec 8).signExtend 64) :=
  arithmetic_describes (n := 1) (k := 2) (a := 0x7f) (b := 1) (by decide) (by decide) (by decide)
    (by decide) (by decide) ⟨by decide, by decide⟩ (mem_insert_self _ _)

namespace Slot

/-- What a slot says of the word it stands for. -/
def Describes : Slot → U64 → Prop
  | bytes b, x => Justified b x
  | low n v, x => v.Describes (x &&& bitMask n)

def WellFormed : Slot → Prop
  | bytes _ => True
  | low n v => 0 < n ∧ n ≤ 8 ∧ v.Normal

variable {a b c : Slot} {x : U64}

theorem describes_get {b : ByteConst} {n : ℕ} {c : U64} (h : Justified b x)
    (hget : b.get n = some c) : c = x &&& bitMask n := by
  obtain ⟨-, hn, hbytes⟩ := ByteConst.get_eq_some hget
  refine eq_of_byteAt fun i hi => ?_
  rw [ext_and_bitMask hn, byteAt_ext64 _ hi]
  by_cases hin : i < n
  · rw [byteAt_setWidth x hin]
    exact h i hi _ (hbytes i hi hin)
  · rw [byteAt_of_le _ (by omega)]
    exact ByteConst.byteAt_of_get hget hi (by omega)

theorem and_bitMask_and {n k : ℕ} (h : k ≤ n) : x &&& bitMask n &&& bitMask k = x &&& bitMask k := by
  apply BitVec.eq_of_toNat_eq
  rw [and_bitMask_toNat, and_bitMask_toNat, and_bitMask_toNat]
  exact Nat.mod_mod_of_dvd _ (pow_dvd_pow 256 (by omega))

theorem describes_read (h : a.Describes x) (pos size : ℕ) :
    (a.read pos size).Describes (x >>> (pos * 8) &&& bitMask size) := by
  cases a with
  | bytes b =>
    rw [read]
    cases hget : (b.bytesAt pos size).get size with
    | none => trivial
    | some c => exact (describes_get (h.bytesAt pos size) hget).symm
  | low n v =>
    rw [read]
    split_ifs with hin
    · have := describes_fit size h
      rw [and_bitMask_and hin.2] at this
      rwa [hin.1, zero_mul, BitVec.ushiftRight_zero]
    · trivial

theorem describes_view {w : ℕ} {v : AbstractValue} (hwf : a.WellFormed) (h : a.view = some (w, v)) :
    0 < w ∧ w ≤ 8 ∧ v.Normal ∧ (a.Describes x → v.Describes (x &&& bitMask w)) := by
  cases a with
  | bytes b =>
    obtain ⟨n, -, hn⟩ := List.exists_of_findSome?_eq_some h
    obtain ⟨c, hget, hc⟩ := Option.map_eq_some_iff.mp hn
    cases hc
    obtain ⟨hpos, hle, -⟩ := ByteConst.get_eq_some hget
    exact ⟨hpos, hle, trivial, fun hx => (describes_get hx hget).symm⟩
  | low n v =>
    cases h
    exact ⟨hwf.1, hwf.2.1, hwf.2.2, id⟩

theorem joinViews_comm (a b : ℕ × AbstractValue) : joinViews a b = joinViews b a := by
  rw [joinViews, joinViews, min_comm, AbstractValue.join_comm]

theorem joinBytes_comm (a b : Slot) : joinBytes a b = joinBytes b a := by
  have hcomm (b c : ByteConst) : b.intersect c = c.intersect b := by
    refine ByteConst.ext_byte fun i hi => ?_
    rw [ByteConst.byte_intersect _ _ hi, ByteConst.byte_intersect _ _ hi]
    by_cases h : b.byte i = c.byte i
    · rw [if_pos h, if_pos h.symm, h]
    · rw [if_neg h, if_neg (Ne.symm h)]
  rw [joinBytes, joinBytes, hcomm]

theorem join_comm (a b : Slot) : a.join b = b.join a := by
  unfold join
  by_cases h : a = b
  · rw [if_pos h, if_pos h.symm, h]
  · rw [if_neg h, if_neg (Ne.symm h), joinBytes_comm]
    cases a.view with
    | none => cases b.view <;> rfl
    | some va =>
      cases b.view with
      | none => rfl
      | some vb => simp only [joinViews_comm va vb]

theorem describes_joinBytes (hj : joinBytes a b = some c) (h : a.Describes x) : c.Describes x := by
  unfold joinBytes at hj
  simp only at hj
  split_ifs at hj
  cases hj
  intro i hi y hy
  rw [ByteConst.byte_intersect _ _ hi] at hy
  split_ifs at hy
  cases a with
  | bytes b => exact h i hi y hy
  | low n v =>
    rw [known, ByteConst.byte_unknown] at hy
    cases hy

theorem describes_joinViews {va vb : ℕ × AbstractValue} (hna : va.2.Normal) (hnb : vb.2.Normal)
    (h : va.2.Describes (x &&& bitMask va.1)) :
    (joinViews va vb).2.Describes (x &&& bitMask (joinViews va vb).1) := by
  refine describes_normalize.mpr
    (AbstractValue.describes_join_left (normal_fit _ hna) (normal_fit _ hnb) ?_)
  have := describes_fit (min va.1 vb.1) h
  rwa [and_bitMask_and (min_le_left ..)] at this

theorem joinViews_spec {va vb : ℕ × AbstractValue} (hna : va.2.Normal) (hnb : vb.2.Normal)
    (ha : 0 < va.1 ∧ va.1 ≤ 8) (hb : 0 < vb.1) :
    0 < (joinViews va vb).1 ∧ (joinViews va vb).1 ≤ 8 ∧ (joinViews va vb).2.Normal := by
  have hjoin := AbstractValue.normal_join (normal_fit (min va.1 vb.1) hna)
    (normal_fit (min va.1 vb.1) hnb)
  refine ⟨lt_min ha.1 hb, (min_le_left ..).trans ha.2, normal_normalize (Few.of_normal hjoin)⟩

/-- A join is one of the slots, a join of what both pin, or the bytes both know. -/
theorem join_cases (hj : a.join b = some c) : (a = b ∧ c = a) ∨
    (∃ va vb, a.view = some va ∧ b.view = some vb ∧
      c = low (joinViews va vb).1 (joinViews va vb).2) ∨ joinBytes a b = some c := by
  unfold join at hj
  split at hj
  · next h => exact .inl ⟨h, (Option.some.inj hj).symm⟩
  · split at hj
    · next va vb hva hvb =>
      split at hj
      · next heq => exact .inr (.inl ⟨va, vb, hva, hvb, by rw [heq, Option.some.inj hj]⟩)
      · next heq => exact .inr (.inl ⟨va, vb, hva, hvb, by rw [heq, Option.some.inj hj]⟩)
      · exact .inr (.inr hj)
    · exact .inr (.inr hj)

theorem describes_join (ha : a.WellFormed) (hb : b.WellFormed) (hj : a.join b = some c)
    (h : a.Describes x) : c.Describes x := by
  rcases join_cases hj with ⟨-, rfl⟩ | ⟨va, vb, hva, hvb, rfl⟩ | hbytes
  · exact h
  · obtain ⟨-, -, hna, hda⟩ := describes_view (x := x) ha hva
    obtain ⟨-, -, hnb, -⟩ := describes_view (x := x) hb hvb
    exact describes_joinViews hna hnb (hda h)
  · exact describes_joinBytes hbytes h

theorem WellFormed.join (ha : a.WellFormed) (hb : b.WellFormed) (hj : a.join b = some c) :
    c.WellFormed := by
  rcases join_cases hj with ⟨-, rfl⟩ | ⟨va, vb, hva, hvb, rfl⟩ | hbytes
  · exact ha
  · obtain ⟨hpa, hwa, hna, -⟩ := describes_view (x := 0) ha hva
    obtain ⟨hpb, -, hnb, -⟩ := describes_view (x := 0) hb hvb
    exact joinViews_spec hna hnb ⟨hpa, hwa⟩ hpb
  · unfold joinBytes at hbytes
    simp only at hbytes
    split_ifs at hbytes
    cases hbytes
    trivial

/-- A join of well-formed slots is well formed, does not depend on their order and says of a
word only what is so when one of the slots describes it, whichever bytes are read. -/
theorem join_describes (ha : a.WellFormed) (hb : b.WellFormed) (hj : a.join b = some c) :
    c.WellFormed ∧ b.join a = some c ∧
      ∀ x pos size, a.Describes x ∨ b.Describes x →
        (c.read pos size).Describes (x >>> (pos * 8) &&& bitMask size) := by
  have hj' : b.join a = some c := join_comm b a ▸ hj
  refine ⟨ha.join hb hj, hj', fun x pos size h => describes_read ?_ pos size⟩
  rcases h with h | h
  · exact describes_join ha hb hj h
  · exact describes_join hb ha hj' h

theorem join_describes_constants :
    (low 8 (.set {3, 7})).WellFormed ∧ (bytes (.konst 7 8)).join (bytes (.konst 3 8)) =
      some (low 8 (.set {3, 7})) ∧ ∀ x pos size,
        (bytes (.konst 3 8)).Describes x ∨ (bytes (.konst 7 8)).Describes x →
          ((low 8 (.set {3, 7})).read pos size).Describes (x >>> (pos * 8) &&& bitMask size) :=
  join_describes (a := bytes (.konst 3 8)) (b := bytes (.konst 7 8)) trivial trivial (by decide)

end Slot

end AbstractSlots
