import Reargo.PcodeModel

/-!
# UTF-8

The bytes of characters, and the lossy reading of any bytes: each longest beginning of a character
that does not go on as one becomes U+FFFD.
-/
namespace Utf8

open PcodeModel List

def byte (n : ℕ) : Byte := BitVec.ofNat 8 n

/-- The lower six bits behind the marks of a continuation. -/
def tailByte (n : ℕ) : Byte := byte (0x80 + n % 64)

def encodeChar (c : Char) : List Byte :=
  let n := c.toNat
  if n < 0x80 then [byte n]
  else if n < 0x800 then [byte (0xC0 + n / 64), tailByte n]
  else if n < 0x10000 then [byte (0xE0 + n / 4096), tailByte (n / 64), tailByte n]
  else [byte (0xF0 + n / 262144), tailByte (n / 4096), tailByte (n / 64), tailByte n]

def encode (s : List Char) : List Byte := s.flatMap encodeChar

def replacement : Char := Char.ofNat 0xFFFD

def isTail (b : Byte) : Bool := 0x80 ≤ b.toNat ∧ b.toNat ≤ 0xBF

/-- The number of bytes of a character by its first, zero where none begins so. -/
def width (b : Byte) : ℕ :=
  if b.toNat < 0x80 then 1
  else if b.toNat < 0xC2 then 0
  else if b.toNat < 0xE0 then 2
  else if b.toNat < 0xF0 then 3
  else if b.toNat < 0xF5 then 4
  else 0

/-- No overlong form, no surrogate, nothing above the last character. -/
def admits (b b₁ : Byte) : Bool :=
  isTail b₁ ∧ (b.toNat = 0xE0 → 0xA0 ≤ b₁.toNat) ∧ (b.toNat = 0xED → b₁.toNat ≤ 0x9F) ∧
    (b.toNat = 0xF0 → 0x90 ≤ b₁.toNat) ∧ (b.toNat = 0xF4 → b₁.toNat ≤ 0x8F)

/-- Whether the bytes go on as the rest of a character, and how many of them do. -/
def tails : ℕ → List Byte → Bool × ℕ
  | 0, _ => (true, 0)
  | _ + 1, [] => (false, 0)
  | k + 1, b :: rest =>
    if isTail b then ((tails k rest).1, (tails k rest).2 + 1) else (false, 0)

/-- Whether a character begins with the byte, and how many bytes behind it belong to it. -/
def extent (b : Byte) (rest : List Byte) : Bool × ℕ :=
  if width b = 0 then (false, 0)
  else if width b = 1 then (true, 0)
  else match rest with
    | [] => (false, 0)
    | b₁ :: rest =>
      if admits b b₁ then ((tails (width b - 2) rest).1, (tails (width b - 2) rest).2 + 1)
      else (false, 0)

/-- What the first byte holds of the character. -/
def lead (b : Byte) : ℕ :=
  if b.toNat < 0x80 then b.toNat
  else if b.toNat < 0xE0 then b.toNat - 0xC0
  else if b.toNat < 0xF0 then b.toNat - 0xE0
  else b.toNat - 0xF0

/-- The character of a first byte and of those behind it. -/
def scalar (b : Byte) (tail : List Byte) : Char :=
  Char.ofNat (tail.foldl (fun n t => n * 64 + (t.toNat - 0x80)) (lead b))

/-- `String::from_utf8_lossy`. -/
def fromUtf8Lossy : List Byte → List Char
  | [] => []
  | b :: rest =>
    let e := extent b rest
    (if e.1 then scalar b (rest.take e.2) else replacement) :: fromUtf8Lossy (rest.drop e.2)
termination_by bytes => bytes.length

variable {c : Char} {b : Byte}

section Encoded

theorem toNat_byte {n : ℕ} (h : n < 256) : (byte n).toNat = n := Nat.mod_eq_of_lt h

theorem toNat_tailByte (n : ℕ) : (tailByte n).toNat = 0x80 + n % 64 := toNat_byte (by omega)

theorem isTail_tailByte (n : ℕ) : isTail (tailByte n) = true := by
  rw [isTail, toNat_tailByte]
  apply decide_eq_true
  omega

theorem tails_tailByte (ns : List ℕ) (rest : List Byte) :
    tails ns.length (ns.map tailByte ++ rest) = (true, ns.length) := by
  induction ns with
  | nil => rfl
  | cons n ns ih =>
    rw [length_cons, map_cons, cons_append, tails, if_pos (isTail_tailByte n), ih]

theorem extent_tailByte {n : ℕ} {ns : List ℕ} (rest : List Byte)
    (hw : width b = ns.length + 2) (ha : admits b (tailByte n) = true) :
    extent b ((n :: ns).map tailByte ++ rest) = (true, (n :: ns).length) := by
  rw [extent.eq_def, hw, if_neg (by omega), if_neg (by omega), map_cons, cons_append]
  dsimp only
  rw [if_pos ha, Nat.add_sub_cancel, tails_tailByte]
  rfl

theorem valid_toNat (c : Char) : c.toNat < 0xD800 ∨ 0xDFFF < c.toNat ∧ c.toNat < 0x110000 := c.valid

/-- What stands behind the first byte is read as the character, whatever follows. -/
structure Whole (c : Char) (b : Byte) (tail : List Byte) : Prop where
  bytes : encodeChar c = b :: tail
  extent : ∀ rest, extent b (tail ++ rest) = (true, tail.length)
  scalar : scalar b tail = c

theorem whole_one (h : c.toNat < 0x80) : Whole c (byte c.toNat) [] := by
  have hb : (byte c.toNat).toNat = c.toNat := toNat_byte (by omega)
  have hw : width (byte c.toNat) = 1 := by rw [width, hb, if_pos h]
  refine ⟨by rw [encodeChar, if_pos h], fun rest => ?_, ?_⟩
  · rw [extent.eq_def, hw, if_neg (by omega), if_pos rfl]
    rfl
  · rw [scalar, foldl_nil, lead, hb, if_pos h, Char.ofNat_toNat]

theorem first_of_two {m : ℕ} (h : 2 ≤ m) (h' : m < 32) :
    width (byte (0xC0 + m)) = 2 ∧ lead (byte (0xC0 + m)) = m := by
  have hb : (byte (0xC0 + m)).toNat = 0xC0 + m := toNat_byte (by omega)
  constructor
  · rw [width, hb, if_neg (by omega), if_neg (by omega), if_pos (by omega)]
  · rw [lead, hb, if_neg (by omega), if_pos (by omega), Nat.add_sub_cancel_left]

theorem first_of_three {m : ℕ} (h : m < 16) :
    width (byte (0xE0 + m)) = 3 ∧ lead (byte (0xE0 + m)) = m := by
  have hb : (byte (0xE0 + m)).toNat = 0xE0 + m := toNat_byte (by omega)
  constructor
  · rw [width, hb, if_neg (by omega), if_neg (by omega), if_neg (by omega), if_pos (by omega)]
  · rw [lead, hb, if_neg (by omega), if_neg (by omega), if_pos (by omega), Nat.add_sub_cancel_left]

theorem first_of_four {m : ℕ} (h : m < 5) :
    width (byte (0xF0 + m)) = 4 ∧ lead (byte (0xF0 + m)) = m := by
  have hb : (byte (0xF0 + m)).toNat = 0xF0 + m := toNat_byte (by omega)
  constructor
  · rw [width, hb, if_neg (by omega), if_neg (by omega), if_neg (by omega), if_neg (by omega),
      if_pos (by omega)]
  · rw [lead, hb, if_neg (by omega), if_neg (by omega), if_neg (by omega), Nat.add_sub_cancel_left]

theorem foldl_tailByte (lead n : ℕ) (ns : List ℕ) :
    ((n :: ns).map tailByte).foldl (fun n t => n * 64 + (t.toNat - 0x80)) lead =
      (ns.map tailByte).foldl (fun n t => n * 64 + (t.toNat - 0x80)) (lead * 64 + n % 64) := by
  rw [map_cons, foldl_cons, toNat_tailByte, Nat.add_sub_cancel_left]

theorem whole_two (h : 0x80 ≤ c.toNat) (h' : c.toNat < 0x800) :
    Whole c (byte (0xC0 + c.toNat / 64)) ([c.toNat].map tailByte) := by
  obtain ⟨hw, hl⟩ := first_of_two (m := c.toNat / 64) (by omega) (by omega)
  have hb : (byte (0xC0 + c.toNat / 64)).toNat = 0xC0 + c.toNat / 64 := toNat_byte (by omega)
  refine ⟨?_, fun rest => extent_tailByte rest hw ?_, ?_⟩
  · rw [encodeChar, if_neg (by omega), if_pos h']
    rfl
  · rw [admits, isTail_tailByte, hb]
    apply decide_eq_true
    refine ⟨rfl, ?_, ?_, ?_, ?_⟩ <;> omega
  · rw [scalar, hl, foldl_tailByte, map_nil, foldl_nil]
    have back : c.toNat / 64 * 64 + c.toNat % 64 = c.toNat := by omega
    rw [back, Char.ofNat_toNat]

theorem whole_three (h : 0x800 ≤ c.toNat) (h' : c.toNat < 0x10000) :
    Whole c (byte (0xE0 + c.toNat / 4096)) ([c.toNat / 64, c.toNat].map tailByte) := by
  have valid := valid_toNat c
  obtain ⟨hw, hl⟩ := first_of_three (m := c.toNat / 4096) (by omega)
  have hb : (byte (0xE0 + c.toNat / 4096)).toNat = 0xE0 + c.toNat / 4096 := toNat_byte (by omega)
  refine ⟨?_, fun rest => extent_tailByte rest hw ?_, ?_⟩
  · rw [encodeChar, if_neg (by omega), if_neg (by omega), if_pos h']
    rfl
  · rw [admits, isTail_tailByte, hb, toNat_tailByte]
    apply decide_eq_true
    refine ⟨rfl, ?_, ?_, ?_, ?_⟩ <;> omega
  · rw [scalar, hl, foldl_tailByte, foldl_tailByte, map_nil, foldl_nil]
    have back : (c.toNat / 4096 * 64 + c.toNat / 64 % 64) * 64 + c.toNat % 64 = c.toNat := by omega
    rw [back, Char.ofNat_toNat]

theorem whole_four (h : 0x10000 ≤ c.toNat) :
    Whole c (byte (0xF0 + c.toNat / 262144))
      ([c.toNat / 4096, c.toNat / 64, c.toNat].map tailByte) := by
  have valid := valid_toNat c
  obtain ⟨hw, hl⟩ := first_of_four (m := c.toNat / 262144) (by omega)
  have hb : (byte (0xF0 + c.toNat / 262144)).toNat = 0xF0 + c.toNat / 262144 :=
    toNat_byte (by omega)
  refine ⟨?_, fun rest => extent_tailByte rest hw ?_, ?_⟩
  · rw [encodeChar, if_neg (by omega), if_neg (by omega), if_neg (by omega)]
    rfl
  · rw [admits, isTail_tailByte, hb, toNat_tailByte]
    apply decide_eq_true
    refine ⟨rfl, ?_, ?_, ?_, ?_⟩ <;> omega
  · rw [scalar, hl, foldl_tailByte, foldl_tailByte, foldl_tailByte, map_nil, foldl_nil]
    have back : ((c.toNat / 262144 * 64 + c.toNat / 4096 % 64) * 64 + c.toNat / 64 % 64) * 64 +
        c.toNat % 64 = c.toNat := by omega
    rw [back, Char.ofNat_toNat]

theorem whole_encodeChar (c : Char) : ∃ b tail, Whole c b tail := by
  rcases lt_or_ge c.toNat 0x80 with h | h
  · exact ⟨_, _, whole_one h⟩
  rcases lt_or_ge c.toNat 0x800 with h' | h'
  · exact ⟨_, _, whole_two h h'⟩
  rcases lt_or_ge c.toNat 0x10000 with h'' | h''
  · exact ⟨_, _, whole_three h' h''⟩
  · exact ⟨_, _, whole_four h''⟩

end Encoded

theorem fromUtf8Lossy_encode (s : List Char) : fromUtf8Lossy (encode s) = s := by
  induction s with
  | nil => simp [encode, fromUtf8Lossy]
  | cons c s ih =>
    obtain ⟨b, tail, whole⟩ := whole_encodeChar c
    rw [encode, flatMap_cons, ← encode, whole.bytes, cons_append, fromUtf8Lossy]
    rw [whole.extent, if_pos rfl, take_left, drop_left, whole.scalar, ih]

theorem mem_encodeChar (h : b ∈ encodeChar c) (hb : b.toNat < 0x80) : b.toNat = c.toNat := by
  have valid := valid_toNat c
  have tail (n : ℕ) : b ≠ tailByte n := by
    rintro rfl
    rw [toNat_tailByte] at hb
    omega
  have lead {n : ℕ} (low : 0x80 ≤ n) (high : n < 256) : b ≠ byte n := by
    rintro rfl
    rw [toNat_byte high] at hb
    omega
  unfold encodeChar at h
  dsimp only at h
  split at h
  · rw [mem_singleton.mp h, toNat_byte (by omega)]
  split at h
  · simp [tail, lead (n := 0xC0 + c.toNat / 64) (by omega) (by omega)] at h
  split at h
  · simp [tail, lead (n := 0xE0 + c.toNat / 4096) (by omega) (by omega)] at h
  · simp [tail, lead (n := 0xF0 + c.toNat / 262144) (by omega) (by omega)] at h

theorem mem_encode {s : List Char} (h : b ∈ encode s) (hb : b.toNat < 0x80) :
    Char.ofNat b.toNat ∈ s := by
  obtain ⟨c, hc, hbc⟩ := mem_flatMap.mp h
  rw [mem_encodeChar hbc hb, Char.ofNat_toNat]
  exact hc

end Utf8
