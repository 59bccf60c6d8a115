import Reargo.PcodeModel

/-!
# Modified UTF-8

The strings of a class file: NUL as two bytes, characters outside the basic plane as a pair of
surrogates of three bytes each. Malformed bytes become U+FFFD.
-/
namespace ModifiedUtf8

open PcodeModel List BitVec

abbrev U16 := BitVec 16

def replacement : Char := Char.ofNat 0xFFFD

def twoBytes (b b₁ : Byte) : U16 :=
  ((b &&& 0x1F).setWidth 16 <<< 6) ||| (b₁ &&& 0x3F).setWidth 16

def threeBytes (b b₁ b₂ : Byte) : U16 :=
  (((b &&& 0x0F).setWidth 16 <<< 12) ||| ((b₁ &&& 0x3F).setWidth 16 <<< 6)) |||
    (b₂ &&& 0x3F).setWidth 16

def units : List Byte → List U16
  | [] => []
  | b :: rest =>
    if b &&& 0x80 = 0 then b.setWidth 16 :: units rest
    else match rest with
      | [] => [0xFFFD]
      | b₁ :: rest₁ =>
        if b &&& 0xE0 = 0xC0 then twoBytes b b₁ :: units rest₁
        else match rest₁ with
          | [] => 0xFFFD :: units [b₁]
          | b₂ :: rest₂ =>
            if b &&& 0xF0 = 0xE0 then threeBytes b b₁ b₂ :: units rest₂
            else 0xFFFD :: units (b₁ :: b₂ :: rest₂)
termination_by bytes => bytes.length

def isHighSurrogate (u : U16) : Bool := 0xD800 ≤ u.toNat ∧ u.toNat < 0xDC00
def isLowSurrogate (u : U16) : Bool := 0xDC00 ≤ u.toNat ∧ u.toNat < 0xE000

def ofSurrogates (u v : U16) : Char :=
  Char.ofNat (0x10000 + (u.toNat - 0xD800) * 0x400 + (v.toNat - 0xDC00))

/-- `String::from_utf16_lossy`. -/
def fromUtf16Lossy : List U16 → List Char
  | [] => []
  | [u] => [if isHighSurrogate u || isLowSurrogate u then replacement else Char.ofNat u.toNat]
  | u :: v :: rest =>
    if isHighSurrogate u then
      if isLowSurrogate v then ofSurrogates u v :: fromUtf16Lossy rest
      else replacement :: fromUtf16Lossy (v :: rest)
    else if isLowSurrogate u then replacement :: fromUtf16Lossy (v :: rest)
    else Char.ofNat u.toNat :: fromUtf16Lossy (v :: rest)

def isAscii (bytes : List Byte) : Bool := bytes.all fun b => b.toNat < 0x80

def decode_modified_utf8 (bytes : List Byte) : String :=
  if isAscii bytes then String.ofList (bytes.map fun b => Char.ofNat b.toNat)
  else String.ofList (fromUtf16Lossy (units bytes))

def encodeUnit (u : ℕ) : List Byte :=
  if u = 0 then [0xC0, 0x80]
  else if u < 0x80 then [BitVec.ofNat 8 u]
  else if u < 0x800 then [BitVec.ofNat 8 (0xC0 + u / 64), BitVec.ofNat 8 (0x80 + u % 64)]
  else [BitVec.ofNat 8 (0xE0 + u / 4096), BitVec.ofNat 8 (0x80 + u / 64 % 64),
    BitVec.ofNat 8 (0x80 + u % 64)]

/-- The UTF-16 units of a character. -/
def unitsOf (c : Char) : List ℕ :=
  if c.toNat < 0x10000 then [c.toNat]
  else [0xD800 + (c.toNat - 0x10000) / 0x400, 0xDC00 + (c.toNat - 0x10000) % 0x400]

def encodeModifiedUtf8 (s : String) : List Byte := s.toList.flatMap fun c =>
    (unitsOf c).flatMap encodeUnit

section Units

theorem and_mask (b : Byte) : (b &&& 0x80 = 0 ↔ b.toNat < 0x80) ∧
    (b &&& 0xE0 = 0xC0 ↔ b.toNat / 32 = 6) ∧ (b &&& 0xF0 = 0xE0 ↔ b.toNat / 16 = 14) := by
  revert b
  decide

theorem toNat_low (b : Byte) : (b &&& 0x1F).toNat = b.toNat % 32 ∧
    (b &&& 0x0F).toNat = b.toNat % 16 ∧ (b &&& 0x3F).toNat = b.toNat % 64 := by
  simp only [toNat_and]
  exact ⟨Nat.and_two_pow_sub_one_eq_mod _ 5, Nat.and_two_pow_sub_one_eq_mod _ 4,
    Nat.and_two_pow_sub_one_eq_mod _ 6⟩

theorem toNat_shift {n k : ℕ} {x : Byte} (hx : x.toNat < n) (hk : n * 2 ^ k ≤ 2 ^ 16) :
    (x.setWidth 16 <<< k).toNat = x.toNat * 2 ^ k := by
  have hlt : x.toNat * 2 ^ k < 2 ^ 16 :=
    lt_of_lt_of_le (Nat.mul_lt_mul_of_pos_right hx (Nat.two_pow_pos k)) hk
  rw [toNat_shiftLeft, toNat_setWidth, Nat.mod_eq_of_lt (by omega : x.toNat < 2 ^ 16),
    Nat.shiftLeft_eq, Nat.mod_eq_of_lt hlt]

theorem toNat_twoBytes (b b₁ : Byte) :
    (twoBytes b b₁).toNat = b.toNat % 32 * 64 + b₁.toNat % 64 := by
  obtain ⟨h5, -, -⟩ := toNat_low b
  obtain ⟨-, -, h6⟩ := toNat_low b₁
  have hlow : (b₁ &&& 0x3F).toNat < 2 ^ 6 := by omega
  have hhigh := toNat_shift (n := 32) (k := 6) (x := b &&& 0x1F) (by omega) (by norm_num)
  have hset : ((b₁ &&& 0x3F).setWidth 16).toNat = (b₁ &&& 0x3F).toNat := by
    rw [toNat_setWidth, Nat.mod_eq_of_lt (by omega)]
  rw [twoBytes, toNat_or, hhigh, hset, mul_comm _ (2 ^ 6),
    ← Nat.two_pow_add_eq_or_of_lt hlow, h5, h6]
  ring

theorem toNat_threeBytes (b b₁ b₂ : Byte) : (threeBytes b b₁ b₂).toNat =
    b.toNat % 16 * 4096 + b₁.toNat % 64 * 64 + b₂.toNat % 64 := by
  obtain ⟨-, h4, -⟩ := toNat_low b
  obtain ⟨-, -, h6⟩ := toNat_low b₁
  obtain ⟨-, -, h6'⟩ := toNat_low b₂
  have hlow : (b₂ &&& 0x3F).toNat < 2 ^ 6 := by omega
  have hhigh := toNat_shift (n := 16) (k := 12) (x := b &&& 0x0F) (by omega) (by norm_num)
  have hmid := toNat_shift (n := 64) (k := 6) (x := b₁ &&& 0x3F) (by omega) (by norm_num)
  have hset : ((b₂ &&& 0x3F).setWidth 16).toNat = (b₂ &&& 0x3F).toNat := by
    rw [toNat_setWidth, Nat.mod_eq_of_lt (by omega)]
  have hmidlt : (b₁ &&& 0x3F).toNat * 2 ^ 6 < 2 ^ 12 := by omega
  rw [threeBytes, toNat_or, toNat_or, hhigh, hmid, hset, mul_comm _ (2 ^ 12),
    ← Nat.two_pow_add_eq_or_of_lt hmidlt, mul_comm _ (2 ^ 6),
    show 2 ^ 12 * (b &&& 0x0F).toNat + 2 ^ 6 * (b₁ &&& 0x3F).toNat =
      2 ^ 6 * (2 ^ 6 * (b &&& 0x0F).toNat + (b₁ &&& 0x3F).toNat) by ring,
    ← Nat.two_pow_add_eq_or_of_lt hlow, h4, h6, h6']
  ring

theorem units_one {b : Byte} (h : b &&& 0x80 = 0) (rest : List Byte) :
    units (b :: rest) = b.setWidth 16 :: units rest := by
  conv_lhs => rw [units.eq_def]
  exact if_pos h

theorem units_two {b : Byte} (h : ¬ b &&& 0x80 = 0) (h' : b &&& 0xE0 = 0xC0) (b₁ : Byte)
    (rest : List Byte) : units (b :: b₁ :: rest) = twoBytes b b₁ :: units rest := by
  conv_lhs => rw [units.eq_def]
  exact (if_neg h).trans (if_pos h')

theorem units_three {b : Byte} (h : ¬ b &&& 0x80 = 0) (h' : ¬ b &&& 0xE0 = 0xC0)
    (h'' : b &&& 0xF0 = 0xE0) (b₁ b₂ : Byte) (rest : List Byte) :
    units (b :: b₁ :: b₂ :: rest) = threeBytes b b₁ b₂ :: units rest := by
  conv_lhs => rw [units.eq_def]
  exact (if_neg h).trans ((if_neg h').trans (if_pos h''))

theorem units_encodeUnit {u : ℕ} (hu : u < 2 ^ 16) (rest : List Byte) :
    units (encodeUnit u ++ rest) = BitVec.ofNat 16 u :: units rest := by
  have hbyte : ∀ {n : ℕ}, n < 256 → (BitVec.ofNat 8 n).toNat = n := fun hn => by
    rw [toNat_ofNat, Nat.mod_eq_of_lt hn]
  unfold encodeUnit
  split
  next h0 =>
    subst h0
    exact units_two (by decide) (by decide) _ rest
  next h0 =>
    split
    next h1 =>
      have hb := hbyte (show u < 256 by omega)
      rw [singleton_append, units_one ((and_mask _).1.mpr (by omega))]
      congr 1
      apply eq_of_toNat_eq
      rw [toNat_setWidth, hb, toNat_ofNat]
    next h1 =>
      split
      next h2 =>
        have hb := hbyte (show 0xC0 + u / 64 < 256 by omega)
        have hb₁ := hbyte (show 0x80 + u % 64 < 256 by omega)
        rw [List.cons_append, singleton_append,
          units_two (fun h => absurd ((and_mask _).1.mp h) (by omega))
            ((and_mask _).2.1.mpr (by omega))]
        congr 1
        apply eq_of_toNat_eq
        rw [toNat_twoBytes, hb, hb₁, toNat_ofNat, Nat.mod_eq_of_lt hu]
        omega
      next h2 =>
        have hb := hbyte (show 0xE0 + u / 4096 < 256 by omega)
        have hb₁ := hbyte (show 0x80 + u / 64 % 64 < 256 by omega)
        have hb₂ := hbyte (show 0x80 + u % 64 < 256 by omega)
        rw [List.cons_append, List.cons_append, singleton_append,
          units_three (fun h => absurd ((and_mask _).1.mp h) (by omega))
            (fun h => absurd ((and_mask _).2.1.mp h) (by omega)) ((and_mask _).2.2.mpr (by omega))]
        congr 1
        apply eq_of_toNat_eq
        rw [toNat_threeBytes, hb, hb₁, hb₂, toNat_ofNat, Nat.mod_eq_of_lt hu]
        omega

theorem units_encodeUnits {us : List ℕ} (hus : ∀ u ∈ us, u < 2 ^ 16) :
    units (us.flatMap encodeUnit) = us.map (BitVec.ofNat 16) := by
  induction us with
  | nil => simp [units]
  | cons u us ih =>
    obtain ⟨hu, hus⟩ := forall_mem_cons.mp hus
    rw [flatMap_cons, units_encodeUnit hu, ih hus, map_cons]

end Units

section Characters

variable {c : Char} {s : String}

theorem toNat_lt (c : Char) : c.toNat < 0xD800 ∨ (0xDFFF < c.toNat ∧ c.toNat < 0x110000) :=
  c.valid

theorem unitsOf_lt (c : Char) : ∀ u ∈ unitsOf c, u < 2 ^ 16 := by
  intro u hu
  have hc := toNat_lt c
  unfold unitsOf at hu
  split at hu
  · rw [mem_singleton.mp hu]
    omega
  · simp only [mem_cons, not_mem_nil, or_false] at hu
    omega

theorem fromUtf16Lossy_unitsOf (c : Char) (rest : List U16) :
    fromUtf16Lossy ((unitsOf c).map (BitVec.ofNat 16) ++ rest) = c :: fromUtf16Lossy rest := by
  have hc := toNat_lt c
  have hword : ∀ {n : ℕ}, n < 2 ^ 16 → (BitVec.ofNat 16 n).toNat = n := fun hn => by
    rw [toNat_ofNat, Nat.mod_eq_of_lt hn]
  unfold unitsOf
  split
  next hplane =>
    have hu := hword (show c.toNat < 2 ^ 16 by omega)
    have hhigh : isHighSurrogate (BitVec.ofNat 16 c.toNat) = false := by
      rw [isHighSurrogate, hu]
      simp
      omega
    have hlow : isLowSurrogate (BitVec.ofNat 16 c.toNat) = false := by
      rw [isLowSurrogate, hu]
      simp
      omega
    cases rest with
    | nil => simp [fromUtf16Lossy, hhigh, hlow, hu, Char.ofNat_toNat]
    | cons v rest => simp [fromUtf16Lossy, hhigh, hlow, hu, Char.ofNat_toNat]
  next hplane =>
    generalize hhi : 0xD800 + (c.toNat - 0x10000) / 0x400 = hi
    generalize hlo : 0xDC00 + (c.toNat - 0x10000) % 0x400 = lo
    have hu := hword (show hi < 2 ^ 16 by omega)
    have hv := hword (show lo < 2 ^ 16 by omega)
    have hhigh : isHighSurrogate (BitVec.ofNat 16 hi) = true := by
      rw [isHighSurrogate, hu]
      simp
      omega
    have hlow : isLowSurrogate (BitVec.ofNat 16 lo) = true := by
      rw [isLowSurrogate, hv]
      simp
      omega
    have hchar : ofSurrogates (BitVec.ofNat 16 hi) (BitVec.ofNat 16 lo) = c := by
      rw [ofSurrogates, hu, hv,
        show 0x10000 + (hi - 0xD800) * 0x400 + (lo - 0xDC00) = c.toNat by omega, Char.ofNat_toNat]
    rw [map_cons, map_cons, map_nil, List.cons_append, List.cons_append,
      nil_append, fromUtf16Lossy, if_pos hhigh, if_pos hlow, hchar]

theorem fromUtf16Lossy_units (cs : List Char) :
    fromUtf16Lossy ((cs.flatMap unitsOf).map (BitVec.ofNat 16)) = cs := by
  induction cs with
  | nil => rfl
  | cons c cs ih => rw [flatMap_cons, map_append, fromUtf16Lossy_unitsOf, ih]

theorem map_ofNat_of_ascii {cs : List Char}
    (h : ∀ b ∈ cs.flatMap fun c => (unitsOf c).flatMap encodeUnit, b.toNat < 0x80) :
    (cs.flatMap fun c => (unitsOf c).flatMap encodeUnit).map (fun b => Char.ofNat b.toNat) = cs := by
  induction cs with
  | nil => rfl
  | cons c cs ih =>
    rw [flatMap_cons] at h ⊢
    have hc : ∀ b ∈ (unitsOf c).flatMap encodeUnit, b.toNat < 0x80 := fun b hb =>
      h b (mem_append_left _ hb)
    have hone : (unitsOf c).flatMap encodeUnit = [BitVec.ofNat 8 c.toNat] ∧ c.toNat < 0x80 := by
      have hfirst : ∀ {u : ℕ}, (∀ b ∈ encodeUnit u, b.toNat < 0x80) →
          u < 2 ^ 16 → encodeUnit u = [BitVec.ofNat 8 u] ∧ u < 0x80 := by
        intro u hbytes hu
        unfold encodeUnit at hbytes ⊢
        split at hbytes
        · exact absurd (hbytes 0xC0 (by simp)) (by decide)
        next h0 =>
          split at hbytes
          next h1 => exact ⟨by rw [if_neg h0, if_pos h1], h1⟩
          next h1 =>
            split at hbytes
            next h2 =>
              have hb := hbytes (BitVec.ofNat 8 (0xC0 + u / 64)) (by simp)
              rw [toNat_ofNat] at hb
              omega
            next h2 =>
              have hb := hbytes (BitVec.ofNat 8 (0xE0 + u / 4096)) (by simp)
              rw [toNat_ofNat] at hb
              omega
      have hlt := unitsOf_lt c
      unfold unitsOf at hc hlt ⊢
      split at hc
      next hplane =>
        rw [flatMap_singleton] at hc
        obtain ⟨hunit, hsmall⟩ := hfirst hc (by omega)
        rw [if_pos hplane, flatMap_singleton]
        exact ⟨hunit, hsmall⟩
      next hplane =>
        rw [if_neg hplane] at hlt
        have hhead : ∀ b ∈ encodeUnit (0xD800 + (c.toNat - 0x10000) / 0x400), b.toNat < 0x80 :=
          fun b hb => hc b (mem_flatMap.mpr ⟨_, by simp, hb⟩)
        have hsmall := (hfirst hhead (hlt _ (by simp))).2
        omega
    have hback : Char.ofNat (BitVec.ofNat 8 c.toNat).toNat = c := by
      rw [toNat_ofNat, Nat.mod_eq_of_lt (by omega), Char.ofNat_toNat]
    rw [hone.1, map_append, ih fun b hb => h b (mem_append_right _ hb), map_singleton,
      hback]
    rfl

theorem decode_encodeModifiedUtf8 (s : String) : decode_modified_utf8 (encodeModifiedUtf8 s) = s := by
  unfold decode_modified_utf8
  split
  next hascii =>
    have hbytes : ∀ b ∈ encodeModifiedUtf8 s, b.toNat < 0x80 := by simpa [isAscii] using hascii
    rw [encodeModifiedUtf8, map_ofNat_of_ascii hbytes, String.ofList_toList]
  next =>
    have hunits : encodeModifiedUtf8 s = (s.toList.flatMap unitsOf).flatMap encodeUnit := by
      rw [encodeModifiedUtf8, flatMap_assoc]
    have hlt : ∀ u ∈ s.toList.flatMap unitsOf, u < 2 ^ 16 := by
      intro u hu
      obtain ⟨c, -, hc⟩ := mem_flatMap.mp hu
      exact unitsOf_lt c u hc
    rw [hunits, units_encodeUnits hlt, fromUtf16Lossy_units, String.ofList_toList]

end Characters

end ModifiedUtf8
