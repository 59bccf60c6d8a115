import Reargo.ReciprocalDivision

/-!
# Division magics

A compiler turns a division by a constant into a multiplication by a magic reciprocal. The
analyzer recomputes the signed and unsigned 32-bit magics of small divisors to recognise them.
-/
namespace MagicDivision

open ReciprocalDivision BitVec

abbrev Word := BitVec 32

def two31 : Word := 0x80000000#32

/-- The loop variables: `q1, r1` of the power by the critical number, `q2, r2` by the divisor. -/
structure Search where
  p : ℕ
  q1 : Word
  r1 : Word
  q2 : Word
  r2 : Word
  deriving DecidableEq, Repr

def signedStep (anc ad : Word) (s : Search) : Search :=
  let q1 := s.q1 * 2#32
  let r1 := s.r1 * 2#32
  let q2 := s.q2 * 2#32
  let r2 := s.r2 * 2#32
  { p := s.p + 1
    q1 := if anc ≤ r1 then q1 + 1#32 else q1
    r1 := if anc ≤ r1 then r1 - anc else r1
    q2 := if ad ≤ r2 then q2 + 1#32 else q2
    r2 := if ad ≤ r2 then r2 - ad else r2 }

def signedDone (ad : Word) (s : Search) : Bool :=
  let delta := ad - s.r2
  decide (delta ≤ s.q1) && !(s.q1 == delta && s.r1 == 0#32)

def signedAnc (d : Word) : Word :=
  let t := two31 + (d >>> 31)
  t - 1#32 - t % d.abs

def signedStart (anc ad : Word) : Search where
  p := 31
  q1 := two31 / anc
  r1 := two31 - two31 / anc * anc
  q2 := two31 / ad
  r2 := two31 - two31 / ad * ad

/-- The magic and the shift past the high word; no divisor takes as many as 64 rounds. -/
def magicS32 (d : Word) : Option (Word × ℕ) :=
  let ad := d.abs
  let anc := signedAnc d
  (stepUntil (signedStep anc ad) (signedDone ad) 64 (signedStart anc ad)).map fun s =>
    let magic := s.q2 + 1#32
    (if d.msb then -magic else magic, s.p - 32)

def unsignedStep (nc d : Word) (s : Search) : Search :=
  { p := s.p + 1
    q1 := if nc - s.r1 ≤ s.r1 then s.q1 * 2#32 + 1#32 else s.q1 * 2#32
    r1 := if nc - s.r1 ≤ s.r1 then s.r1 * 2#32 - nc else s.r1 * 2#32
    q2 := if d - s.r2 ≤ s.r2 + 1#32 then s.q2 * 2#32 + 1#32 else s.q2 * 2#32 + 1#32
    r2 := if d - s.r2 ≤ s.r2 + 1#32 then s.r2 * 2#32 + 1#32 - d else s.r2 * 2#32 + 1#32 }

def unsignedDone (d : Word) (s : Search) : Bool :=
  let delta := d - 1#32 - s.r2
  !(decide (s.p < 64) && (decide (s.q1 < delta) || (s.q1 == delta && s.r1 == 0#32)))

def unsignedNc (d : Word) : Word := BitVec.allOnes 32 - (-d) % d

def unsignedStart (nc d : Word) : Search where
  p := 31
  q1 := two31 / nc
  r1 := two31 - two31 / nc * nc
  q2 := (two31 - 1#32) / d
  r2 := two31 - 1#32 - (two31 - 1#32) / d * d

def magicU32 (d : Word) : Option Word :=
  let nc := unsignedNc d
  (stepUntil (unsignedStep nc d) (unsignedDone d) 64 (unsignedStart nc d)).map fun s => s.q2 + 1#32

/-- A divisor that needs a magic: positive as signed, past two, and no power of two. -/
structure Divisor (d : Word) : Prop where
  ge : 3 ≤ d.toNat
  lt : d.toNat < 2 ^ 31
  not_pow : ∀ k, d.toNat ≠ 2 ^ k

def SignedDivides (d magic : Word) (shift : ℕ) : Prop :=
  magic.toNat = 2 ^ (32 + shift) / d.toNat + 1 ∧ ∀ n : Word, n.toInt.tdiv d.toInt =
      (magic.toNat * n.toInt) >>> (32 + shift) + if n.toInt < 0 then 1 else 0

/-- The rounded-up reciprocal at `p` divides every unsigned word. -/
def UnsignedExact (d : Word) (p : ℕ) : Prop :=
  ∀ n : Word, ((2 ^ p - 1) / d.toNat + 1) * n.toNat / 2 ^ p = n.toNat / d.toNat

def UnsignedMagic (d magic : Word) : Prop :=
  ∃ p, IsLeast {p | 32 ≤ p ∧ UnsignedExact d p} p ∧
    magic = BitVec.ofNat 32 ((2 ^ p - 1) / d.toNat + 1)

def MagicsDivide (d : Word) : Prop :=
  (∃ magic shift, magicS32 d = some (magic, shift) ∧ SignedDivides d magic shift) ∧
    ∃ magic, magicU32 d = some magic ∧ UnsignedMagic d magic

section Words

variable {q r c : Word} {x : ℕ}

theorem double_words_wide (hc : 0 < c.toNat) (hq : q.toNat = x / c.toNat)
    (hr : r.toNat = x % c.toNat) (hsmall : x / c.toNat < 2 ^ 31) :
    (if c - r ≤ r then q * 2#32 + 1#32 else q * 2#32).toNat = 2 * x / c.toNat ∧
      (if c - r ≤ r then r * 2#32 - c else r * 2#32).toNat = 2 * x % c.toNat := by
  obtain ⟨hdiv, hmod⟩ := double_div_mod (c := c.toNat) (x := x) hc 0 (by omega)
  have hlt := Nat.mod_lt x hc
  have hq2 : (q * 2#32).toNat = 2 * (x / c.toNat) := by
    simp only [toNat_mul, hq, toNat_ofNat]
    omega
  have hsub : (c - r).toNat = c.toNat - x % c.toNat := by
    simp only [toNat_sub, hr]
    omega
  simp only [add_zero] at hdiv hmod
  rw [hdiv, hmod]
  by_cases h : c.toNat ≤ 2 * (x % c.toNat)
  · have hle : c - r ≤ r := by
      rw [le_def]
      omega
    simp only [if_pos h, if_pos hle, toNat_add, toNat_sub, toNat_mul, hr, hq2, toNat_ofNat]
    omega
  · have hle : ¬ c - r ≤ r := by
      rw [le_def]
      omega
    simp only [if_neg h, if_neg hle, toNat_mul, hr, hq2, toNat_ofNat]
    omega

/-- A signed round does so while the quotient keeps below the sign bit. -/
theorem double_words (hc : 0 < c.toNat) (hc31 : c.toNat ≤ 2 ^ 31)
    (hq : q.toNat = x / c.toNat) (hr : r.toNat = x % c.toNat) (hsmall : x / c.toNat < 2 ^ 31) :
    (if c ≤ r * 2#32 then q * 2#32 + 1#32 else q * 2#32).toNat = 2 * x / c.toNat ∧
      (if c ≤ r * 2#32 then r * 2#32 - c else r * 2#32).toNat = 2 * x % c.toNat := by
  have hiff : c ≤ r * 2#32 ↔ c - r ≤ r := by
    have hlt := Nat.mod_lt x hc
    simp only [le_def, toNat_mul, toNat_sub, hr, toNat_ofNat]
    omega
  simp only [hiff]
  exact double_words_wide hc hq hr hsmall

theorem double_pred_word (hc : 0 < c.toNat) (hc31 : c.toNat ≤ 2 ^ 31) (hr : r.toNat = x % c.toNat) :
    (if c - r ≤ r + 1#32 then r * 2#32 + 1#32 - c else r * 2#32 + 1#32).toNat =
      (2 * x + 1) % c.toNat := by
  obtain ⟨-, hmod⟩ := double_div_mod (c := c.toNat) (x := x) hc 1 (by omega)
  have hlt := Nat.mod_lt x hc
  have hsub : (c - r).toNat = c.toNat - x % c.toNat := by
    simp only [toNat_sub, hr]
    omega
  have hsucc : (r + 1#32).toNat = x % c.toNat + 1 := by
    simp only [toNat_add, hr, toNat_ofNat]
    omega
  have hr2 : (r * 2#32 + 1#32).toNat = 2 * (x % c.toNat) + 1 := by
    simp only [toNat_add, toNat_mul, hr, toNat_ofNat]
    omega
  rw [hmod]
  by_cases h : c.toNat ≤ 2 * (x % c.toNat) + 1
  · have hle : c - r ≤ r + 1#32 := by
      rw [le_def]
      omega
    simp only [if_pos h, if_pos hle, toNat_sub, hr2]
    omega
  · have hle : ¬ c - r ≤ r + 1#32 := by
      rw [le_def]
      omega
    simp only [if_neg h, if_neg hle, hr2]
    omega

theorem start_words : (two31 / c).toNat = 2 ^ 31 / c.toNat ∧
      (two31 - two31 / c * c).toNat = 2 ^ 31 % c.toNat := by
  have hdiv := Nat.div_add_mod (2 ^ 31) c.toNat
  have hq : (two31 / c).toNat = 2 ^ 31 / c.toNat := by
    simp [toNat_udiv, two31]
  have hprod : (two31 / c * c).toNat = c.toNat * (2 ^ 31 / c.toNat) := by
    rw [toNat_mul, hq, mul_comm, Nat.mod_eq_of_lt (by omega)]
  refine ⟨hq, ?_⟩
  have htwo : two31.toNat = 2 ^ 31 := rfl
  rw [toNat_sub, hprod, htwo]
  omega

end Words

section Signed

variable {d : Word} {nc p : ℕ} {s : Search}

/-- What a state of the signed loop holds when it has reached the power `p`. -/
structure SignedTracks (nc d p : ℕ) (s : Search) : Prop where
  power : s.p = p
  q1 : s.q1.toNat = 2 ^ p / nc
  r1 : s.r1.toNat = 2 ^ p % nc
  q2 : s.q2.toNat = 2 ^ p / d
  r2 : s.r2.toNat = 2 ^ p % d

/-- The loop's test: the reciprocal at `p` divides the critical number. -/
def SignedStop (nc d p : ℕ) : Prop := nc * (d - 2 ^ p % d) < 2 ^ p

namespace Divisor

variable (h : Divisor d)

include h

theorem pos : 0 < d.toNat := by
  have := h.ge
  omega

theorem msb_eq : d.msb = false := by
  have := h.lt
  rw [msb_eq_decide]
  exact decide_eq_false (by omega)

theorem abs_eq : d.abs = d := by
  rw [BitVec.abs_eq, if_neg (by simp [h.msb_eq])]

theorem toInt_eq : d.toInt = d.toNat :=
  toInt_eq_toNat_of_msb h.msb_eq

theorem signedAnc_eq : (signedAnc d).toNat = 2 ^ 31 - 1 - 2 ^ 31 % d.toNat := by
  have hlt := h.lt
  have hmod := Nat.mod_lt (2 ^ 31) h.pos
  have hshift : (d >>> 31).toNat = 0 := by
    rw [toNat_ushiftRight, Nat.shiftRight_eq_div_pow]
    omega
  have ht : (two31 + (d >>> 31)).toNat = 2 ^ 31 := by
    rw [toNat_add, hshift]
    rfl
  simp only [signedAnc, h.abs_eq, toNat_sub, toNat_umod, ht, toNat_ofNat]
  omega

theorem signed_critical : Critical (2 ^ 31 - 1) d.toNat (signedAnc d).toNat := by
  have hlt := h.lt
  rw [h.signedAnc_eq]
  exact critical_of h.pos (by omega)

/-- No power of two is a multiple of a divisor that needs a magic. -/
theorem pow_mod_pos (k : ℕ) : 0 < 2 ^ k % d.toNat := by
  refine Nat.pos_of_ne_zero fun h0 => ?_
  obtain ⟨i, -, hi⟩ := (Nat.dvd_prime_pow Nat.prime_two).mp (Nat.dvd_of_mod_eq_zero h0)
  exact h.not_pow i hi

end Divisor

theorem signed_step (h : Divisor d) (hp : 31 ≤ p)
    (hgo : p = 31 ∨ ¬ SignedStop (signedAnc d).toNat d.toNat p)
    (hs : SignedTracks (signedAnc d).toNat d.toNat p s) :
    SignedTracks (signedAnc d).toNat d.toNat (p + 1) (signedStep (signedAnc d) d s) ∧
      (signedDone d (signedStep (signedAnc d) d s) = true ↔
        SignedStop (signedAnc d).toNat d.toNat (p + 1)) := by
  have hcrit := h.signed_critical
  have hge := h.ge
  have hlt := h.lt
  have hpred := hcrit.pred_le
  have hle := hcrit.le
  have hnc : 0 < (signedAnc d).toNat := by omega
  obtain ⟨hsmall1, hsmall2⟩ : 2 ^ p / (signedAnc d).toNat < 2 ^ 31 ∧ 2 ^ p / d.toNat < 2 ^ 31 := by
    rcases hgo with rfl | hgo
    · exact ⟨Nat.div_lt_self (by omega) (by omega), Nat.div_lt_self (by omega) (by omega)⟩
    · have hprod : 2 ^ p ≤ (signedAnc d).toNat * d.toNat :=
        Nat.le_trans (Nat.le_of_not_lt hgo) (Nat.mul_le_mul_left _ (Nat.sub_le _ _))
      constructor
      · exact Nat.lt_of_le_of_lt (Nat.div_le_of_le_mul hprod) hlt
      · rw [Nat.mul_comm] at hprod
        exact Nat.lt_of_le_of_lt (Nat.div_le_of_le_mul hprod) (by omega)
  have hone := double_words hnc (by omega) hs.q1 hs.r1 hsmall1
  have htwo := double_words h.pos (by omega) hs.q2 hs.r2 hsmall2
  have hpow : 2 ^ (p + 1) = 2 * 2 ^ p := by ring
  have hnext : SignedTracks (signedAnc d).toNat d.toNat (p + 1)
      (signedStep (signedAnc d) d s) := by
    refine ⟨by simp [signedStep, hs.power], ?_, ?_, ?_, ?_⟩ <;> rw [hpow]
    · exact hone.1
    · exact hone.2
    · exact htwo.1
    · exact htwo.2
  refine ⟨hnext, ?_⟩
  generalize signedStep (signedAnc d) d s = s' at hnext ⊢
  have hmod := Nat.mod_lt (2 ^ (p + 1)) h.pos
  have hdelta : (d - s'.r2).toNat = d.toNat - 2 ^ (p + 1) % d.toNat := by
    simp only [toNat_sub, hnext.r2]
    omega
  rw [SignedStop, mul_lt_iff hnc]
  simp only [signedDone, Bool.and_eq_true, decide_eq_true_eq, Bool.not_eq_true', Bool.and_eq_false_iff,
    beq_eq_false_iff_ne, ne_eq, ← toNat_inj, le_def, hdelta, hnext.q1, hnext.r1,
    toNat_ofNat]
  omega

theorem signed_run (h : Divisor d) :
    ∃ least s', stepUntil (signedStep (signedAnc d) d) (signedDone d) 64
        (signedStart (signedAnc d) d) = some s' ∧
      SignedTracks (signedAnc d).toNat d.toNat least s' ∧
      IsLeast {i | 31 < i ∧ SignedStop (signedAnc d).toNat d.toNat i} least := by
  have hcrit := h.signed_critical
  have hle := hcrit.le
  have hlt := h.lt
  have hlast : SignedStop (signedAnc d).toNat d.toNat 62 := by
    calc (signedAnc d).toNat * (d.toNat - 2 ^ 62 % d.toNat)
        ≤ (2 ^ 31 - 1) * 2 ^ 31 := Nat.mul_le_mul hle (by omega)
      _ < 2 ^ 62 := by norm_num
  have hstart : SignedTracks (signedAnc d).toNat d.toNat 31 (signedStart (signedAnc d) d) :=
    ⟨rfl, start_words.1, start_words.2, start_words.1, start_words.2⟩
  obtain ⟨least, s', hrun, htracks, -, hleast⟩ :=
    stepUntil_least 62 hlast (fun p s hp _ hgo hs => signed_step h hp hgo hs) 64 31 _ le_rfl
      (by omega) (by omega) (.inl rfl) hstart (fun i hi hi' => by omega)
  exact ⟨least, s', hrun, htracks, hleast⟩

theorem signed_fits (h : Divisor d)
    (hleast : IsLeast {i | 31 < i ∧ SignedStop (signedAnc d).toNat d.toNat i} p) :
    2 ^ p / d.toNat + 1 < 2 ^ 32 := by
  have hcrit := h.signed_critical
  have hle := hcrit.le
  have hge := h.ge
  obtain ⟨⟨hp, -⟩, hmin⟩ := hleast
  obtain ⟨i, rfl⟩ : ∃ i, p = i + 1 := ⟨p - 1, by omega⟩
  rcases lt_or_ge 31 i with hi | hi
  · have hgo : ¬ SignedStop (signedAnc d).toNat d.toNat i := fun hstop => by
      have := hmin ⟨hi, hstop⟩
      omega
    have hprod : 2 ^ (i + 1) ≤ d.toNat * (2 * (signedAnc d).toNat) := by
      calc 2 ^ (i + 1) = 2 * 2 ^ i := by ring
        _ ≤ 2 * ((signedAnc d).toNat * (d.toNat - 2 ^ i % d.toNat)) :=
          Nat.mul_le_mul_left 2 (Nat.le_of_not_lt hgo)
        _ ≤ 2 * ((signedAnc d).toNat * d.toNat) :=
          Nat.mul_le_mul_left 2 (Nat.mul_le_mul_left _ (Nat.sub_le _ _))
        _ = d.toNat * (2 * (signedAnc d).toNat) := by ring
    have := Nat.div_le_of_le_mul hprod
    omega
  · have heq : i = 31 := by omega
    subst heq
    have : 2 ^ (31 + 1) / d.toNat ≤ 2 ^ (31 + 1) / 3 := Nat.div_le_div_left hge (by omega)
    omega

end Signed

section SignedDivision

variable {d : Word} {p : ℕ}

theorem signed_reciprocal (h : Divisor d) :
    (2 ^ p / d.toNat + 1) * d.toNat = 2 ^ p + (d.toNat - 2 ^ p % d.toNat) := by
  have hdiv := Nat.div_add_mod (2 ^ p) d.toNat
  have hmod := Nat.mod_lt (2 ^ p) h.pos
  rw [Nat.add_mul, Nat.one_mul, Nat.mul_comm]
  omega

theorem signed_nonneg (h : Divisor d) (hstop : SignedStop (signedAnc d).toNat d.toNat p) {k : ℕ}
    (hk : k < 2 ^ 31) : (2 ^ p / d.toNat + 1) * k / 2 ^ p = k / d.toNat :=
  (mul_div_eq_iff h.pos (Nat.two_pow_pos p) (signed_reciprocal h)).mpr
    (h.signed_critical.room h.pos hstop (by omega))

/-- The negative numbers reach one further than the positive ones. -/
theorem signed_neg (h : Divisor d) (hp : 31 ≤ p)
    (hstop : SignedStop (signedAnc d).toNat d.toNat p) {k : ℕ} (hk0 : 0 < k) (hk : k ≤ 2 ^ 31) :
    ((2 ^ p / d.toNat + 1) * k - 1) / 2 ^ p = k / d.toNat := by
  have hmod := Nat.mod_lt (2 ^ p) h.pos
  refine (pred_mul_div_eq_iff h.pos (Nat.two_pow_pos p) (signed_reciprocal h) (by omega) hk0).mpr ?_
  rcases lt_or_ge k (2 ^ 31) with hlt | hge
  · exact (h.signed_critical.room h.pos hstop (by omega)).le
  · have heq : k = 2 ^ 31 - 1 + 1 := by omega
    rw [heq]
    refine h.signed_critical.room_succ h.pos hstop fun hlast => ?_
    have hsplit : 2 ^ 31 * 2 ^ (p - 31) = 2 ^ p := by
      rw [← pow_add]
      congr 1
      omega
    have hexcess := excess_le (c := 2 ^ (p - 31)) h.pos hlast (Nat.two_pow_pos _)
    calc (2 ^ 31 - 1 + 1) * (d.toNat - 2 ^ p % d.toNat)
        = 2 ^ 31 * (d.toNat - 2 ^ 31 * 2 ^ (p - 31) % d.toNat) := by
          rw [hsplit]
          norm_num
      _ ≤ 2 ^ 31 * 2 ^ (p - 31) := Nat.mul_le_mul_left _ hexcess
      _ = 2 ^ p := hsplit

/-- A product of a negative number is floored away from zero, and stepped back. -/
theorem neg_mul_shift (m k : ℕ) (hm : 0 < m) (hk : 0 < k) :
    ((m : ℤ) * -(k : ℤ)) >>> p + 1 = -(((m * k - 1) / 2 ^ p : ℕ) : ℤ) := by
  have hprod : 0 < m * k := Nat.mul_pos hm hk
  obtain ⟨t, ht⟩ : ∃ t, m * k = t + 1 := ⟨m * k - 1, by omega⟩
  have hneg : (m : ℤ) * -(k : ℤ) = Int.negSucc t := by
    rw [Int.negSucc_eq, mul_neg, ← Int.natCast_mul, ht]
    push_cast
    ring
  have hshift : Int.negSucc t >>> p = Int.negSucc (t >>> p) := rfl
  rw [hneg, hshift, Nat.shiftRight_eq_div_pow, ht, Int.negSucc_eq, Nat.add_sub_cancel]
  ring

theorem signed_divides (h : Divisor d) (hp : 31 < p)
    (hstop : SignedStop (signedAnc d).toNat d.toNat p) (n : Word) :
    n.toInt.tdiv d.toInt =
      (((2 ^ p / d.toNat + 1 : ℕ) : ℤ) * n.toInt) >>> p + if n.toInt < 0 then 1 else 0 := by
  rw [h.toInt_eq]
  have hlow := le_toInt n
  have hhigh := toInt_lt (x := n)
  by_cases hn : n.toInt < 0
  · obtain ⟨k, hk⟩ : ∃ k : ℕ, n.toInt = -(k : ℤ) := ⟨n.toInt.natAbs, by omega⟩
    have hk0 : 0 < k := by omega
    rw [if_pos hn, hk, neg_mul_shift _ k (Nat.succ_pos _) hk0,
      signed_neg h hp.le hstop hk0 (by omega), Int.neg_tdiv]
    simp
  · obtain ⟨k, hk⟩ : ∃ k : ℕ, n.toInt = (k : ℤ) := ⟨n.toInt.toNat, by omega⟩
    rw [if_neg hn, hk, add_zero, ← Int.natCast_mul, Int.shiftRight_eq_div_pow,
      ← Int.natCast_ediv, signed_nonneg h hstop (by omega)]
    simp

theorem magicS32_divides (h : Divisor d) :
    ∃ magic shift, magicS32 d = some (magic, shift) ∧ SignedDivides d magic shift := by
  obtain ⟨least, s, hrun, hs, hleast⟩ := signed_run h
  have hfits := signed_fits h hleast
  obtain ⟨⟨hp, hstop⟩, -⟩ := hleast
  have hshift : 32 + (least - 32) = least := by omega
  have hmagic : (s.q2 + 1#32).toNat = 2 ^ least / d.toNat + 1 := by
    simp only [toNat_add, hs.q2, toNat_ofNat]
    exact Nat.mod_eq_of_lt hfits
  refine ⟨s.q2 + 1#32, least - 32, ?_, ?_, fun n => ?_⟩
  · simp [magicS32, h.abs_eq, hrun, h.msb_eq, hs.power]
  · rw [hshift, hmagic]
  · rw [hshift, hmagic]
    exact signed_divides h hp hstop n

end SignedDivision

section Unsigned

variable {d : Word} {p : ℕ} {s : Search}

/-- What the rounded-up reciprocal at `p` exceeds the power by, times the divisor. -/
def unsignedExcess (d p : ℕ) : ℕ := d - 1 - (2 ^ p - 1) % d

def UnsignedStop (nc d p : ℕ) : Prop := nc * unsignedExcess d p < 2 ^ p

/-- The reciprocal the unsigned loop starts from. -/
def firstReciprocal (d : ℕ) : ℕ := (2 ^ 31 - 1) / d + 1

/-- The quotient by the divisor gains one in every round, so its successor doubles. -/
structure UnsignedTracks (nc d p : ℕ) (s : Search) : Prop where
  power : s.p = p
  q1 : s.q1.toNat = 2 ^ p / nc
  r1 : s.r1.toNat = 2 ^ p % nc
  q2 : s.q2 + 1#32 = BitVec.ofNat 32 (firstReciprocal d * 2 ^ (p - 31))
  r2 : s.r2.toNat = (2 ^ p - 1) % d

theorem reciprocal_excess (h : Divisor d) (p : ℕ) :
    ((2 ^ p - 1) / d.toNat + 1) * d.toNat = 2 ^ p + unsignedExcess d.toNat p := by
  have hdiv := Nat.div_add_mod (2 ^ p - 1) d.toNat
  have hmod := Nat.mod_lt (2 ^ p - 1) h.pos
  have hpow := Nat.two_pow_pos p
  rw [unsignedExcess, Nat.add_mul, Nat.one_mul, Nat.mul_comm]
  omega

namespace Divisor

variable (h : Divisor d)

include h

theorem unsignedNc_eq : (unsignedNc d).toNat = 2 ^ 32 - 1 - 2 ^ 32 % d.toNat := by
  have hge := h.ge
  have hlt := h.lt
  have hmod := Nat.mod_lt (2 ^ 32) h.pos
  have hneg : (-d % d).toNat = 2 ^ 32 % d.toNat := by
    have hfits : 2 ^ 32 - d.toNat < 2 ^ 32 := by omega
    rw [toNat_umod, toNat_neg, Nat.mod_eq_of_lt hfits]
    exact (Nat.mod_eq_sub_mod (by omega)).symm
  rw [unsignedNc, toNat_sub, hneg, toNat_allOnes]
  omega

theorem unsigned_critical : Critical (2 ^ 32 - 1) d.toNat (unsignedNc d).toNat := by
  have hlt := h.lt
  rw [h.unsignedNc_eq]
  exact critical_of h.pos (by omega)

theorem unsignedNc_gt : 2 ^ 31 < (unsignedNc d).toNat := by
  have := h.unsigned_critical.lt
  have hlt := h.lt
  omega

theorem unsignedExcess_lt (p : ℕ) : unsignedExcess d.toNat p < d.toNat := by
  have := h.pos
  rw [unsignedExcess]
  omega

theorem first_excess : ∃ e, 0 < e ∧ e < d.toNat ∧
    firstReciprocal d.toNat * d.toNat = 2 ^ 31 + e := by
  refine ⟨unsignedExcess d.toNat 31, ?_, h.unsignedExcess_lt 31, reciprocal_excess h 31⟩
  refine Nat.pos_of_ne_zero fun h0 => ?_
  have hsum := reciprocal_excess h 31
  have hmod := h.pow_mod_pos 31
  rw [h0] at hsum
  have hdvd : d.toNat ∣ 2 ^ 31 := Dvd.intro_left _ hsum
  omega

end Divisor

/-- The loop's test is that the reciprocal divides every word. -/
theorem unsignedExact_iff (h : Divisor d) :
    UnsignedExact d p ↔ UnsignedStop (unsignedNc d).toNat d.toNat p := by
  rw [UnsignedStop, ← h.unsigned_critical.exact_iff h.pos (Nat.two_pow_pos p)
    (reciprocal_excess h p)]
  constructor
  · intro hexact n hn
    have hword := hexact (BitVec.ofNat 32 n)
    rwa [toNat_ofNat, Nat.mod_eq_of_lt (by omega)] at hword
  · intro hexact n
    exact hexact n.toNat (by have := n.isLt; omega)

theorem unsigned_step (h : Divisor d) (hp : 31 ≤ p) (hlast : p < 63)
    (hgo : p = 31 ∨ ¬ UnsignedStop (unsignedNc d).toNat d.toNat p)
    (hs : UnsignedTracks (unsignedNc d).toNat d.toNat p s) :
    UnsignedTracks (unsignedNc d).toNat d.toNat (p + 1) (unsignedStep (unsignedNc d) d s) ∧
      (unsignedDone d (unsignedStep (unsignedNc d) d s) = true ↔
        UnsignedStop (unsignedNc d).toNat d.toNat (p + 1)) := by
  have hge := h.ge
  have hlt := h.lt
  have hnc31 := h.unsignedNc_gt
  have hnc : 0 < (unsignedNc d).toNat := by omega
  have hsmall : 2 ^ p / (unsignedNc d).toNat < 2 ^ 31 := by
    rcases hgo with rfl | hgo
    · rw [Nat.div_eq_of_lt hnc31]
      norm_num
    · have hprod : 2 ^ p ≤ (unsignedNc d).toNat * d.toNat :=
        Nat.le_trans (Nat.le_of_not_lt hgo) (Nat.mul_le_mul_left _ (h.unsignedExcess_lt p).le)
      exact Nat.lt_of_le_of_lt (Nat.div_le_of_le_mul hprod) hlt
  have hone := double_words_wide hnc hs.q1 hs.r1 hsmall
  have htwo := double_pred_word h.pos (by omega) hs.r2
  have hpow : 2 ^ (p + 1) = 2 * 2 ^ p := by ring
  have hpos := Nat.two_pow_pos p
  have hnext : UnsignedTracks (unsignedNc d).toNat d.toNat (p + 1)
      (unsignedStep (unsignedNc d) d s) := by
    refine ⟨by simp [unsignedStep, hs.power], ?_, ?_, ?_, ?_⟩
    · simpa only [unsignedStep, hpow] using hone.1
    · simpa only [unsignedStep, hpow] using hone.2
    · have hdouble : s.q2 * 2#32 + 1#32 + 1#32 = (s.q2 + 1#32) * 2#32 := by
        apply eq_of_toNat_eq
        simp only [toNat_add, toNat_mul, toNat_ofNat]
        omega
      have hexp : firstReciprocal d.toNat * 2 ^ (p + 1 - 31) =
          firstReciprocal d.toNat * 2 ^ (p - 31) * 2 := by
        rw [show p + 1 - 31 = p - 31 + 1 by omega, pow_succ, mul_assoc]
      simp only [unsignedStep, ite_self, hdouble, hs.q2, hexp]
      apply eq_of_toNat_eq
      simp [toNat_mul, Nat.mul_mod]
    · rw [show 2 ^ (p + 1) - 1 = 2 * (2 ^ p - 1) + 1 by omega]
      exact htwo
  refine ⟨hnext, ?_⟩
  generalize unsignedStep (unsignedNc d) d s = s' at hnext ⊢
  have hmod := Nat.mod_lt (2 ^ (p + 1) - 1) h.pos
  have hdelta : (d - 1#32 - s'.r2).toNat = unsignedExcess d.toNat (p + 1) := by
    simp only [toNat_sub, hnext.r2, unsignedExcess, toNat_ofNat]
    omega
  have hcap : s'.p < 64 := by
    rw [hnext.power]
    omega
  rw [UnsignedStop, mul_lt_iff hnc]
  simp only [unsignedDone, decide_eq_true hcap, Bool.true_and, Bool.not_eq_true',
    Bool.and_eq_false_iff, Bool.or_eq_false_iff, decide_eq_false_iff_not, beq_eq_false_iff_ne,
    ne_eq, ← toNat_inj, lt_def, hdelta, hnext.q1, hnext.r1, toNat_ofNat]
  omega

theorem unsigned_run (h : Divisor d) : ∃ least, magicU32 d =
        some (BitVec.ofNat 32 (firstReciprocal d.toNat * 2 ^ (least - 31))) ∧
      least ≤ 63 ∧
      IsLeast {i | 31 < i ∧ UnsignedStop (unsignedNc d).toNat d.toNat i} least := by
  have hlt := h.lt
  have hlast : UnsignedStop (unsignedNc d).toNat d.toNat 63 := by
    have hword := (unsignedNc d).isLt
    have hexcess := h.unsignedExcess_lt 63
    calc (unsignedNc d).toNat * unsignedExcess d.toNat 63
        ≤ 2 ^ 32 * (2 ^ 31 - 1) := Nat.mul_le_mul hword.le (by omega)
      _ < 2 ^ 63 := by norm_num
  have hpred : (two31 - 1#32).toNat = 2 ^ 31 - 1 := rfl
  have hq2 : ((two31 - 1#32) / d).toNat = (2 ^ 31 - 1) / d.toNat := by
    rw [toNat_udiv, hpred]
  have hdiv := Nat.div_add_mod (2 ^ 31 - 1) d.toNat
  have hstart : UnsignedTracks (unsignedNc d).toNat d.toNat 31
      (unsignedStart (unsignedNc d) d) := by
    refine ⟨rfl, start_words.1, start_words.2, ?_, ?_⟩
    · apply eq_of_toNat_eq
      simp [unsignedStart, hq2, firstReciprocal, toNat_add]
    · have hprod : ((two31 - 1#32) / d * d).toNat = d.toNat * ((2 ^ 31 - 1) / d.toNat) := by
        rw [toNat_mul, hq2, mul_comm, Nat.mod_eq_of_lt (by omega)]
      simp only [unsignedStart]
      rw [toNat_sub, hprod, hpred]
      omega
  obtain ⟨least, s', hrun, htracks, hle, hleast⟩ :=
    stepUntil_least 63 hlast (fun p s hp hl hgo hs => unsigned_step h hp hl hgo hs) 64 31 _
      le_rfl (by omega) (by omega) (.inl rfl) hstart (fun i hi hi' => by omega)
  refine ⟨least, ?_, hle, hleast⟩
  simp [magicU32, hrun, htracks.q2]

/-- The doubled first reciprocal is not the reciprocal at an exact power, even modulo words:
its excess is doubled along, and no doubled excess is small enough. -/
theorem doubled_ne_reciprocal (h : Divisor d) (hp : 31 ≤ p) (hle : p ≤ 63)
    (hstop : UnsignedStop (unsignedNc d).toNat d.toNat p) :
    BitVec.ofNat 32 (firstReciprocal d.toNat * 2 ^ (p - 31)) ≠
      BitVec.ofNat 32 ((2 ^ p - 1) / d.toNat + 1) := by
  intro heq
  obtain ⟨e, he0, he, hfirst⟩ := h.first_excess
  have hsplit : 2 ^ p = 2 ^ 31 * 2 ^ (p - 31) := by
    rw [← pow_add]
    congr 1
    omega
  have hk : 2 ^ (p - 31) ≤ 2 ^ 32 := Nat.pow_le_pow_right (by omega) (by omega)
  have hpos := h.pos
  have hgood := reciprocal_excess h p
  have hexcess := h.unsignedExcess_lt p
  have hdoubled : firstReciprocal d.toNat * 2 ^ (p - 31) * d.toNat = 2 ^ p + e * 2 ^ (p - 31) := by
    calc firstReciprocal d.toNat * 2 ^ (p - 31) * d.toNat
        = firstReciprocal d.toNat * d.toNat * 2 ^ (p - 31) := by ring
      _ = 2 ^ p + e * 2 ^ (p - 31) := by rw [hfirst, hsplit]; ring
  rw [UnsignedStop] at hstop
  generalize unsignedExcess d.toNat p = g at *
  generalize firstReciprocal d.toNat * 2 ^ (p - 31) = a at *
  generalize (2 ^ p - 1) / d.toNat + 1 = c at *
  -- The two differ by less than a word, so they are equal.
  have hca : c ≤ a := by
    have : c * d.toNat < (a + 1) * d.toNat := by
      rw [Nat.add_mul, hdoubled, hgood]
      omega
    exact Nat.le_of_lt_succ (Nat.lt_of_mul_lt_mul_right this)
  have hac : a < c + 2 ^ 32 := by
    have hprod : e * 2 ^ (p - 31) < d.toNat * 2 ^ 32 :=
      Nat.mul_lt_mul_of_lt_of_le he hk (by positivity)
    have : a * d.toNat < (c + 2 ^ 32) * d.toNat := by
      rw [Nat.add_mul, hdoubled, hgood, Nat.mul_comm (2 ^ 32)]
      omega
    exact Nat.lt_of_mul_lt_mul_right this
  have hmod : a % 2 ^ 32 = c % 2 ^ 32 := by
    simpa using congrArg BitVec.toNat heq
  have hsame : a = c := by omega
  have hg : g = e * 2 ^ (p - 31) := by
    rw [hsame] at hdoubled
    omega
  have hbig : 2 ^ p ≤ (unsignedNc d).toNat * g := by
    calc 2 ^ p = 2 ^ 31 * 2 ^ (p - 31) := hsplit
      _ ≤ (unsignedNc d).toNat * (e * 2 ^ (p - 31)) :=
        Nat.mul_le_mul h.unsignedNc_gt.le (Nat.le_mul_of_pos_left _ he0)
      _ = (unsignedNc d).toNat * g := by rw [hg]
  omega

theorem magicU32_not_magic (h : Divisor d) :
    ∃ magic, magicU32 d = some magic ∧ ¬ UnsignedMagic d magic := by
  obtain ⟨least, hmagic, hle, hleast⟩ := unsigned_run h
  refine ⟨_, hmagic, ?_⟩
  rintro ⟨p, hp, heq⟩
  have hsets : {i | 32 ≤ i ∧ UnsignedExact d i} =
      {i | 31 < i ∧ UnsignedStop (unsignedNc d).toNat d.toNat i} := by
    ext i
    simp only [Set.mem_ofPred_eq, unsignedExact_iff h, Nat.lt_iff_add_one_le]
  rw [hsets] at hp
  obtain rfl := hp.unique hleast
  exact doubled_ne_reciprocal h hleast.1.1.le hle hleast.1.2 heq

end Unsigned

/-- No divisor has both magics right: the signed one divides, the unsigned one does not. -/
theorem magics_divide_never {d : Word} (h : Divisor d) :
    (∃ magic shift, magicS32 d = some (magic, shift) ∧ SignedDivides d magic shift) ∧
      ¬ MagicsDivide d := by
  refine ⟨magicS32_divides h, ?_⟩
  rintro ⟨-, magic, hmagic, hgood⟩
  obtain ⟨magic', hmagic', hbad⟩ := magicU32_not_magic h
  rw [hmagic, Option.some.injEq] at hmagic'
  exact hbad (hmagic' ▸ hgood)

theorem divisor_seven : Divisor 7#32 where
  ge := by decide
  lt := by decide
  not_pow k hk := by
    rcases lt_or_ge k 3 with hlt | hge
    · interval_cases k <;> simp at hk
    · have := Nat.pow_le_pow_right (n := 2) (by omega) hge
      simp at hk
      omega

theorem magics_divide_never_seven :
    (∃ magic shift, magicS32 7#32 = some (magic, shift) ∧ SignedDivides 7#32 magic shift) ∧
      ¬ MagicsDivide 7#32 :=
  magics_divide_never divisor_seven

/-- Seven has the magic `0x24924925` at the power 35; the loop returns `0x24924930`. -/
theorem seven_has_wrong_magic : Divisor 7#32 ∧ magicU32 7#32 = some 0x24924930#32 ∧
      IsLeast {p | 32 ≤ p ∧ UnsignedExact 7#32 p} 35 ∧
      BitVec.ofNat 32 ((2 ^ 35 - 1) / 7 + 1) = 0x24924925#32 ∧ ¬ MagicsDivide 7#32 := by
  have hstop : ∀ p, UnsignedExact 7#32 p ↔
      UnsignedStop (unsignedNc 7#32).toNat (7#32 : Word).toNat p :=
    fun p => unsignedExact_iff divisor_seven
  have hmagic : magicU32 7#32 = some 0x24924930#32 := by decide +kernel
  have hleast : IsLeast {p | 32 ≤ p ∧ UnsignedExact 7#32 p} 35 := by
    constructor
    · refine ⟨by norm_num, (hstop 35).mpr ?_⟩
      change (unsignedNc 7#32).toNat * unsignedExcess 7 35 < 2 ^ 35
      decide +kernel
    · rintro p ⟨hp, hexact⟩
      by_contra hlt
      have hnot : ∀ p, 32 ≤ p → p < 35 →
          ¬ (unsignedNc 7#32).toNat * unsignedExcess 7 p < 2 ^ p := by decide +kernel
      exact hnot p hp (by omega) ((hstop p).mp hexact)
  refine ⟨divisor_seven, hmagic, hleast, by decide +kernel, ?_⟩
  rintro ⟨-, magic, hfound, p, hp, heq⟩
  obtain rfl := hp.unique hleast
  rw [hmagic, heq] at hfound
  revert hfound
  decide +kernel

end MagicDivision
