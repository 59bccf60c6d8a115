import Reargo.Tlsh

/-!
# TLSH digests

A digest prints a checksum, a length, the quartile ratios and two bits for each bucket, and
reads back as printed. What two digests are compared by is a distance: nothing between equal
ones, the same both ways, and no longer directly than by way of a third.
-/
namespace TlshDigests

open PcodeModel Tlsh Histograms List

section Distance

variable {α : Type*}

/-- A distance that vanishes between values that are the same in some respect. -/
structure Distance (same : α → α → Prop) (d : α → α → ℕ) : Prop where
  zero : ∀ x y, d x y = 0 ↔ same x y
  comm : ∀ x y, d x y = d y x
  triangle : ∀ x y z, d x z ≤ d x y + d y z

theorem Distance.position (f : α → ℕ) :
    Distance (fun x y => f x = f y) fun x y => ((f x : ℤ) - f y).natAbs :=
  ⟨fun x y => by omega, fun x y => by omega, fun x y z => by omega⟩

theorem Distance.differ {β : Type*} [DecidableEq β] (f : α → β) :
    Distance (fun x y => f x = f y) fun x y => if f x ≠ f y then 1 else 0 := by
  refine ⟨fun x y => by simp, fun x y => by simp [ne_comm], fun x y z => ?_⟩
  by_cases hxy : f x = f y
  · simp [hxy]
  · rw [if_pos hxy]
    split <;> omega

theorem Distance.add {same same' : α → α → Prop} {d e : α → α → ℕ} (hd : Distance same d)
    (he : Distance same' e) :
    Distance (fun x y => same x y ∧ same' x y) fun x y => d x y + e x y := by
  refine ⟨fun x y => ?_, fun x y => ?_, fun x y z => ?_⟩
  · rw [Nat.add_eq_zero_iff, hd.zero, he.zero]
  · rw [hd.comm, he.comm]
  · have := hd.triangle x y z
    have := he.triangle x y z
    omega

theorem Distance.sum {ι : Type*} {same : ι → α → α → Prop} {d : ι → α → α → ℕ} (l : List ι)
    (h : ∀ i ∈ l, Distance (same i) (d i)) :
    Distance (fun x y => ∀ i ∈ l, same i x y) fun x y => (l.map fun i => d i x y).sum := by
  induction l with
  | nil => exact ⟨by simp, by simp, by simp⟩
  | cons i l ih =>
    have := (h i mem_cons_self).add (ih fun j hj => h j (mem_cons_of_mem _ hj))
    simpa only [map_cons, sum_cons, forall_mem_cons] using this

end Distance

abbrev Text := List Byte

def hex_nibble (b : Byte) : Option Byte :=
  if '0'.toNat ≤ b.toNat ∧ b.toNat ≤ '9'.toNat then some (b - 0x30)
  else if 'a'.toNat ≤ b.toNat ∧ b.toNat ≤ 'f'.toNat then some (b - 0x61 + 10)
  else if 'A'.toNat ≤ b.toNat ∧ b.toNat ≤ 'F'.toNat then some (b - 0x41 + 10)
  else none

def decodePairs : Text → Option (List Byte)
  | hi :: lo :: rest => do
    let hi ← hex_nibble hi
    let lo ← hex_nibble lo
    return ((hi <<< 4) ||| lo) :: (← decodePairs rest)
  | _ => some []

/-- `"T1"`, in front of the digits. -/
def mark : Text := [0x54, 0x31]

def decode_hex (s : Text) : Option (List Byte) :=
  let s := if s.take 2 = mark then s.drop 2 else s
  if s.length % 2 = 0 then decodePairs s else none

def upperDigit (n : Byte) : Byte := if n < 10 then n + 0x30 else n - 10 + 0x41

/-- `format!("{:02X}", b)` -/
def hexByte (b : Byte) : Text := [upperDigit (b >>> 4), upperDigit (b &&& 0x0F)]

def quartiles (buckets : Buckets) : U32 × U32 × U32 :=
  let copy := ((List.range 128).map fun i => buckets (.ofNat 7 i)).insertionSort (· ≤ ·)
  (copy.getD (128 / 4) 0, copy.getD (128 / 2) 0, copy.getD (3 * 128 / 4) 0)

def code (q : U32 × U32 × U32) (b : U32) : Byte :=
  if b ≤ q.1 then 0 else if b ≤ q.2.1 then 1 else if b ≤ q.2.2 then 2 else 3

def encode_body (buckets : Buckets) (q : U32 × U32 × U32) : List Byte :=
  (List.range 128).foldl (fun out i =>
    out.modify (i / 4) (· ||| code q (buckets (.ofNat 7 i)) <<< (i % 4 * 2))) (replicate 32 0)

def ratio (q q3 : U32) : Byte := BitVec.ofNat 8 (q.toNat * 100 / q3.toNat) &&& 0x0F

/-- The bytes of a digest; the length is told by a logarithm, given as `lvalue`. -/
def digest (vector : Bool) (lvalue : ℕ → Byte) (data : List Byte) : Option (List Byte) :=
  if data.length < 50 then none
  else
    let (buckets, checksum) := build_buckets vector data
    let q := quartiles buckets
    if q.2.2 = 0 then none
    else some (checksum :: lvalue data.length ::
      ((ratio q.1 q.2.2 <<< 4) ||| ratio q.2.1 q.2.2) :: encode_body buckets q)

def hash (vector : Bool) (lvalue : ℕ → Byte) (data : List Byte) : Option Text :=
  (digest vector lvalue data).map fun d => mark ++ d.flatMap hexByte

def DIFF_TABLE : List (List ℕ) := [[0, 1, 2, 6], [1, 0, 1, 5], [2, 1, 0, 4], [6, 5, 4, 0]]

def absDiff (a b : Byte) : ℕ := ((a.toNat : ℤ) - b.toNat).natAbs

def crumb (b : Byte) (shift : ℕ) : ℕ := ((b >>> shift) &&& 0b11).toNat

def byteDistance (a b : Byte) : ℕ :=
  ([0, 2, 4, 6].map fun shift => (DIFF_TABLE.getD (crumb a shift) []).getD (crumb b shift) 0).sum

def distance (da db : List Byte) : ℕ :=
  let qa := da.getD 2 0
  let qb := db.getD 2 0
  min (absDiff (da.getD 1 0) (db.getD 1 0)) 255 + ((if da.getD 0 0 ≠ db.getD 0 0 then 1 else 0) +
    (absDiff (qa >>> 4) (qb >>> 4) + (absDiff (qa &&& 0x0F) (qb &&& 0x0F) +
      ((List.range' 3 32).map fun i => byteDistance (da.getD i 0) (db.getD i 0)).sum)))

def compare (a b : Text) : Option ℕ := do
  let da ← decode_hex a
  let db ← decode_hex b
  if da.length ≠ 35 ∨ db.length ≠ 35 then none else some (distance da db)

/-- Where the codes are put on a line. -/
def position (code : ℕ) : ℕ := [0, 1, 2, 6].getD code 0

theorem crumb_lt (b : Byte) (shift : ℕ) : crumb b shift < 4 := by
  unfold crumb
  rw [BitVec.toNat_and]
  exact Nat.and_lt_two_pow (n := 2) _ (by decide)

theorem diff_table (a b : Byte) (shift : ℕ) :
    (DIFF_TABLE.getD (crumb a shift) []).getD (crumb b shift) 0 =
      ((position (crumb a shift) : ℤ) - position (crumb b shift)).natAbs := by
  have ha := crumb_lt a shift
  have hb := crumb_lt b shift
  generalize crumb a shift = m at ha ⊢
  generalize crumb b shift = n at hb ⊢
  interval_cases m <;> interval_cases n <;> rfl

theorem of_crumbs : ∀ b : Byte, b = BitVec.ofNat 8
    (crumb b 0 + 4 * crumb b 2 + 16 * crumb b 4 + 64 * crumb b 6) := by decide +kernel

theorem of_nibbles : ∀ b : Byte, ((b >>> 4) <<< 4) ||| (b &&& 0x0F) = b := by decide

theorem byteDistance_isDistance : Distance (fun a b : Byte => a = b) byteDistance := by
  have hsum := Distance.sum (α := Byte) [0, 2, 4, 6] fun shift _ =>
    Distance.position fun b => position (crumb b shift)
  have hsame (a b : Byte) : (∀ shift ∈ [0, 2, 4, 6],
      position (crumb a shift) = position (crumb b shift)) ↔ a = b := by
    refine ⟨fun h => ?_, fun h _ _ => by rw [h]⟩
    have hcrumb (shift : ℕ) (hs : shift ∈ [0, 2, 4, 6]) : crumb a shift = crumb b shift := by
      have hpos := h shift hs
      have ha := crumb_lt a shift
      have hb := crumb_lt b shift
      generalize crumb a shift = m at ha hpos ⊢
      generalize crumb b shift = n at hb hpos ⊢
      interval_cases m <;> interval_cases n <;> first | rfl | exact absurd hpos (by decide)
    rw [of_crumbs a, of_crumbs b, hcrumb 0 (by simp), hcrumb 2 (by simp), hcrumb 4 (by simp),
      hcrumb 6 (by simp)]
  have heq : byteDistance = fun a b => ([0, 2, 4, 6].map fun shift =>
      ((position (crumb a shift) : ℤ) - position (crumb b shift)).natAbs).sum := by
    funext a b
    exact congrArg List.sum (map_congr_left fun shift _ => diff_table a b shift)
  rw [heq]
  exact ⟨fun a b => (hsum.zero a b).trans (hsame a b), hsum.comm, hsum.triangle⟩

/-- What two digests agree on when nothing is between them. -/
theorem distance_isDistance : Distance (fun x y : List Byte =>
    (x.getD 1 0).toNat = (y.getD 1 0).toNat ∧ x.getD 0 0 = y.getD 0 0 ∧
      (x.getD 2 0 >>> 4).toNat = (y.getD 2 0 >>> 4).toNat ∧
        (x.getD 2 0 &&& 0x0F).toNat = (y.getD 2 0 &&& 0x0F).toNat ∧
          ∀ i ∈ List.range' 3 32, x.getD i 0 = y.getD i 0) distance := by
  have hbytes : Distance (fun x y : List Byte => ∀ i ∈ range' 3 32, x.getD i 0 = y.getD i 0)
      (fun x y => ((range' 3 32).map fun i => byteDistance (x.getD i 0) (y.getD i 0)).sum) :=
    Distance.sum (range' 3 32) fun i _ =>
      ⟨fun x y => byteDistance_isDistance.zero _ _, fun x y => byteDistance_isDistance.comm _ _,
        fun x y z => byteDistance_isDistance.triangle _ _ _⟩
  have hall := (Distance.position fun x : List Byte => (x.getD 1 0).toNat).add
    ((Distance.differ fun x : List Byte => x.getD 0 0).add
      ((Distance.position fun x : List Byte => (x.getD 2 0 >>> 4).toNat).add
        ((Distance.position fun x : List Byte => (x.getD 2 0 &&& 0x0F).toNat).add hbytes)))
  -- the cap is never reached by bytes
  have hcap (a b : Byte) : min (absDiff a b) 255 = absDiff a b := by
    have := a.isLt
    have := b.isLt
    unfold absDiff
    omega
  have heq (x y : List Byte) : distance x y = absDiff (x.getD 1 0) (y.getD 1 0) +
      ((if x.getD 0 0 ≠ y.getD 0 0 then 1 else 0) +
        (absDiff (x.getD 2 0 >>> 4) (y.getD 2 0 >>> 4) +
          (absDiff (x.getD 2 0 &&& 0x0F) (y.getD 2 0 &&& 0x0F) +
            ((range' 3 32).map fun i => byteDistance (x.getD i 0) (y.getD i 0)).sum))) := by
    rw [distance, hcap]
  refine ⟨fun x y => heq x y ▸ hall.zero x y, fun x y => ?_, fun x y z => ?_⟩
  · rw [heq, heq]
    exact hall.comm x y
  · rw [heq, heq, heq]
    exact hall.triangle x y z

theorem distance_eq_zero {x y : List Byte} (hx : x.length = 35) (hy : y.length = 35) :
    distance x y = 0 ↔ x = y := by
  rw [distance_isDistance.zero]
  refine ⟨fun ⟨h1, h0, hhi, hlo, hbody⟩ => ?_, fun h => by simp [h]⟩
  have hat (i : ℕ) (hi : i < 35) : x.getD i 0 = y.getD i 0 := by
    rcases i with _ | _ | _ | i
    · exact h0
    · exact BitVec.eq_of_toNat_eq h1
    · rw [← of_nibbles (x.getD 2 0), ← of_nibbles (y.getD 2 0), BitVec.eq_of_toNat_eq hhi,
        BitVec.eq_of_toNat_eq hlo]
    · exact hbody _ (mem_range'_1.mpr (by omega))
  refine ext_getElem (hx.trans hy.symm) fun i hi hi' => ?_
  have := hat i (hx ▸ hi)
  rwa [getD_eq_getElem _ _ hi, getD_eq_getElem _ _ hi'] at this

theorem compare_eq_some {a b : Text} {d : ℕ} (h : compare a b = some d) :
    ∃ da db, decode_hex a = some da ∧ decode_hex b = some db ∧ da.length = 35 ∧ db.length = 35 ∧
      d = distance da db := by
  unfold compare at h
  obtain ⟨da, hda, h⟩ := Option.bind_eq_some_iff.mp h
  obtain ⟨db, hdb, h⟩ := Option.bind_eq_some_iff.mp h
  split_ifs at h with hlen
  rw [not_or, not_not, not_not] at hlen
  exact ⟨da, db, hda, hdb, hlen.1, hlen.2, (Option.some.inj h).symm⟩

theorem compare_of_decoded {a b : Text} {da db : List Byte} (ha : decode_hex a = some da)
    (hb : decode_hex b = some db) (hla : da.length = 35) (hlb : db.length = 35) :
    compare a b = some (distance da db) := by
  simp [compare, ha, hb, hla, hlb]

/-- Comparing is a distance on digests: the same both ways, zero only between texts of the same
bytes, and within the sum of the ways through a third digest. -/
theorem compare_isDistance {a b c : Text} {d e : ℕ} (hab : compare a b = some d)
    (hbc : compare b c = some e) :
    compare b a = some d ∧ (d = 0 ↔ decode_hex a = decode_hex b) ∧
      ∃ f, compare a c = some f ∧ f ≤ d + e := by
  obtain ⟨da, db, hda, hdb, hla, hlb, hd⟩ := compare_eq_some hab
  obtain ⟨db', dc, hdb', hdc, -, hlc, he⟩ := compare_eq_some hbc
  obtain rfl : db = db' := Option.some.inj (hdb.symm.trans hdb')
  rw [hd, he]
  refine ⟨?_, ?_, _, compare_of_decoded hda hdc hla hlc, distance_isDistance.triangle da db dc⟩
  · rw [compare_of_decoded hdb hda hlb hla, distance_isDistance.comm]
  · rw [distance_eq_zero hla hlb, hda, hdb, Option.some.injEq]

theorem compare_isDistance_checksum :
    compare (mark ++ replicate 70 0x30) (0x31 :: replicate 69 0x30) = some 1 ∧
      ∃ f, compare (0x31 :: replicate 69 0x30) (mark ++ replicate 70 0x30) = some f ∧ f ≤ 1 + 0 := by
  have hab : compare (0x31 :: replicate 69 0x30) (mark ++ replicate 70 0x30) = some 1 := by
    decide +kernel
  have hbb : compare (mark ++ replicate 70 0x30) (mark ++ replicate 70 0x30) = some 0 := by
    decide +kernel
  obtain ⟨hba, -, hvia⟩ := compare_isDistance hab hbb
  exact ⟨hba, hvia⟩

section Digest

variable {vector : Bool} {lvalue : ℕ → Byte} {data : List Byte}

theorem nibbles_read : ∀ b : Byte, hex_nibble (upperDigit (b >>> 4)) = some (b >>> 4) ∧
    hex_nibble (upperDigit (b &&& 0x0F)) = some (b &&& 0x0F) := by decide +kernel

theorem decodePairs_hexByte (d : List Byte) : decodePairs (d.flatMap hexByte) = some d := by
  induction d with
  | nil => rfl
  | cons b d ih =>
    obtain ⟨hhi, hlo⟩ := nibbles_read b
    rw [flatMap_cons, hexByte, cons_append, cons_append, nil_append, decodePairs, hhi, hlo, ih]
    simp only [Option.bind_eq_bind, Option.bind_some, pure]
    rw [of_nibbles]

theorem decode_hex_marked (d : List Byte) : decode_hex (mark ++ d.flatMap hexByte) = some d := by
  have hlen : (d.flatMap hexByte).length % 2 = 0 := by
    have htwo : ∀ b : Byte, (hexByte b).length = 2 := fun _ => rfl
    simp [length_flatMap, htwo]
  have hdrop : (mark ++ d.flatMap hexByte).drop 2 = d.flatMap hexByte := rfl
  have htake : (mark ++ d.flatMap hexByte).take 2 = mark := rfl
  simp only [decode_hex, htake, if_true, hdrop, hlen]
  exact decodePairs_hexByte d

theorem length_encode_body (buckets : Buckets) (q : U32 × U32 × U32) :
    (encode_body buckets q).length = 32 := by
  unfold encode_body
  generalize range 128 = l
  have hstart : (replicate 32 (0 : Byte)).length = 32 := rfl
  generalize replicate 32 (0 : Byte) = out at hstart
  induction l generalizing out with
  | nil => exact hstart
  | cons i l ih => exact ih _ (by rw [length_modify, hstart])

/-- A byte is made by the steps that go to it. -/
theorem getD_foldl_modify (g : ℕ → ℕ) (f : ℕ → Byte → Byte) (l : List ℕ) (out : List Byte) {j : ℕ}
    (hj : j < out.length) : (l.foldl (fun out i => out.modify (g i) (f i)) out).getD j 0 =
      (l.filter (g · = j)).foldl (fun b i => f i b) (out.getD j 0) := by
  induction l generalizing out with
  | nil => rfl
  | cons i l ih =>
    have hget : (out.modify (g i) (f i)).getD j 0 =
        if g i = j then f i (out.getD j 0) else out.getD j 0 := by
      rw [getD_eq_getElem _ _ (by rwa [length_modify]), getElem_modify, getD_eq_getElem _ _ hj]
    rw [foldl_cons, ih _ (by rwa [length_modify]), filter_cons, hget]
    by_cases h : g i = j
    · rw [if_pos h, if_pos (decide_eq_true h), foldl_cons]
    · rw [if_neg h, if_neg (by simpa using h)]

theorem codes_kept (q : U32 × U32 × U32) (a b c d : U32) : ∀ k < 4,
    ((0 ||| code q a <<< 0 ||| code q b <<< 2 ||| code q c <<< 4 ||| code q d <<< 6) >>> (k * 2)) &&&
      0b11 = code q ([a, b, c, d].getD k 0) := by
  have hcode (x : U32) : code q x = 0 ∨ code q x = 1 ∨ code q x = 2 ∨ code q x = 3 := by
    unfold code
    split_ifs <;> simp
  intro k hk
  have hget : code q ([a, b, c, d].getD k 0) = [code q a, code q b, code q c, code q d].getD k 0 := by
    interval_cases k <;> rfl
  rw [hget]
  have hall : ∀ x ∈ [(0 : Byte), 1, 2, 3], ∀ y ∈ [(0 : Byte), 1, 2, 3], ∀ z ∈ [(0 : Byte), 1, 2, 3],
      ∀ w ∈ [(0 : Byte), 1, 2, 3], ∀ k < 4,
        ((0 ||| x <<< 0 ||| y <<< 2 ||| z <<< 4 ||| w <<< 6) >>> (k * 2)) &&& 0b11 =
          [x, y, z, w].getD k 0 := by decide +kernel
  exact hall _ (by simpa using hcode a) _ (by simpa using hcode b) _ (by simpa using hcode c) _
    (by simpa using hcode d) k hk

theorem encode_body_code (buckets : Buckets) (q : U32 × U32 × U32) {i : ℕ} (hi : i < 128) :
    (((encode_body buckets q).getD (i / 4) 0) >>> (i % 4 * 2)) &&& 0b11 =
      code q (buckets (.ofNat 7 i)) := by
  have hj : i / 4 < 32 := by omega
  have hfour : ∀ j < 32, (range 128).filter (· / 4 = j) =
      [4 * j, 4 * j + 1, 4 * j + 2, 4 * j + 3] := by decide +kernel
  rw [encode_body, getD_foldl_modify (· / 4) _ _ _ (by simpa using hj), hfour _ hj]
  have hmod (k : ℕ) (hk : k < 4) : (4 * (i / 4) + k) % 4 = k := by omega
  have hstart : (replicate 32 (0 : Byte)).getD (i / 4) 0 = 0 := by
    rw [getD_eq_getElem _ _ (by simpa using hj), getElem_replicate]
  simp only [foldl_cons, foldl_nil, hstart, hmod 1 (by decide), hmod 2 (by decide),
    hmod 3 (by decide), Nat.mul_mod_right]
  refine (codes_kept q _ _ _ _ (i % 4) (Nat.mod_lt _ (by decide))).trans ?_
  have hi4 : i = 4 * (i / 4) + i % 4 := (Nat.div_add_mod i 4).symm
  have hlt := Nat.mod_lt i (show 0 < 4 by decide)
  conv_rhs => rw [hi4]
  generalize i % 4 = k at hlt
  generalize 4 * (i / 4) = n
  interval_cases k <;> rfl

/-- A digest reads back as the checksum, the length byte and the quartile of every bucket of its
data, and is at no distance from itself. -/
theorem hash_reads_back {s : Text} (h : hash vector lvalue data = some s) :
    50 ≤ data.length ∧ ∃ d, decode_hex s = some d ∧ d.length = 35 ∧
      d.getD 0 0 = (build_buckets vector data).2 ∧ d.getD 1 0 = lvalue data.length ∧
        (∀ i < 128, (d.getD (3 + i / 4) 0 >>> (i % 4 * 2)) &&& 0b11 =
          code (quartiles (build_buckets vector data).1) ((build_buckets vector data).1 (.ofNat 7 i))) ∧
        compare s s = some 0 := by
  obtain ⟨d, hd, rfl⟩ := Option.map_eq_some_iff.mp h
  unfold digest at hd
  split_ifs at hd with hlen
  generalize build_buckets vector data = counted at hd ⊢
  obtain ⟨buckets, checksum⟩ := counted
  simp only at hd ⊢
  split_ifs at hd
  obtain rfl := Option.some.inj hd
  have hbody := length_encode_body buckets (quartiles buckets)
  have hcode (i : ℕ) (hi : i < 128) := encode_body_code buckets (quartiles buckets) hi
  generalize encode_body buckets (quartiles buckets) = body at hbody hcode ⊢
  generalize ((ratio (quartiles buckets).1 (quartiles buckets).2.2 <<< 4) |||
    ratio (quartiles buckets).2.1 (quartiles buckets).2.2) = ratios
  have hsize : (checksum :: lvalue data.length :: ratios :: body).length = 35 := by
    rw [length_cons, length_cons, length_cons, hbody]
  have hread := decode_hex_marked (checksum :: lvalue data.length :: ratios :: body)
  refine ⟨Nat.le_of_not_lt hlen, _, hread, hsize, rfl, rfl, fun i hi => ?_, ?_⟩
  · rw [show 3 + i / 4 = i / 4 + 1 + 1 + 1 by omega, getD_cons_succ, getD_cons_succ, getD_cons_succ]
    exact hcode i hi
  · rw [compare_of_decoded hread hread hsize hsize, (distance_eq_zero hsize hsize).mpr rfl]

end Digest

theorem hash_reads_back_ramp : ∃ s d,
    hash false (fun _ => 9) ((List.range 50).map (BitVec.ofNat 8)) = some s ∧
      decode_hex s = some d ∧ d.length = 35 ∧ compare s s = some 0 := by
  have hsome : (hash false (fun _ => 9) ((range 50).map (BitVec.ofNat 8))).isSome = true := by
    decide +kernel
  obtain ⟨s, hs⟩ := Option.isSome_iff_exists.mp hsome
  obtain ⟨-, d, hd, hlen, -, -, -, hself⟩ := hash_reads_back hs
  exact ⟨s, d, hs, hd, hlen, hself⟩

end TlshDigests
