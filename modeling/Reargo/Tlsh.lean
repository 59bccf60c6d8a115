import Reargo.PcodeModel
import Reargo.Histograms
import Mathlib.Data.List.GetD

/-!
# The front end of the TLSH digest

The histogram of the buckets of all windows of five bytes and the checksum that chains through
them: the plain pass window by window, and the pass with precomputed lookups, in chunks, one window
or sixty-four at a time. The counters are words of 32 bits that wrap around.
-/
namespace Tlsh

open PcodeModel Histograms List BitVec

def V_BYTES : List ℕ := [1, 87, 49, 12, 176, 178, 102, 166, 121, 193, 6, 84, 249, 230, 44, 163,
    14, 197, 213, 181, 161, 85, 218, 80, 64, 239, 24, 226, 236, 142, 38, 200,
    110, 177, 104, 103, 141, 253, 255, 50, 77, 101, 81, 18, 45, 96, 31, 222,
    25, 107, 190, 70, 86, 237, 240, 34, 72, 242, 20, 214, 244, 227, 149, 235,
    97, 234, 57, 22, 60, 250, 82, 175, 208, 5, 127, 199, 111, 62, 135, 248,
    174, 169, 211, 58, 66, 154, 106, 195, 245, 171, 17, 187, 182, 179, 0, 243,
    132, 56, 148, 75, 128, 133, 158, 100, 130, 126, 91, 13, 153, 246, 216, 219,
    119, 68, 223, 78, 83, 88, 201, 99, 122, 11, 92, 32, 136, 114, 52, 10,
    138, 30, 48, 183, 156, 35, 61, 26, 143, 74, 251, 94, 129, 162, 63, 152,
    170, 7, 115, 167, 241, 206, 3, 150, 55, 59, 151, 220, 90, 53, 23, 131,
    125, 173, 15, 238, 79, 95, 89, 16, 105, 137, 225, 224, 217, 160, 37, 123,
    118, 73, 2, 157, 46, 116, 9, 145, 134, 228, 207, 212, 202, 215, 69, 229,
    27, 188, 67, 124, 168, 252, 42, 4, 29, 108, 21, 247, 19, 205, 39, 203,
    233, 40, 186, 147, 198, 192, 155, 33, 164, 191, 98, 204, 165, 180, 117, 76,
    140, 36, 210, 172, 41, 54, 159, 8, 185, 232, 113, 196, 231, 47, 146, 120,
    51, 65, 28, 144, 254, 221, 93, 189, 194, 139, 112, 43, 71, 109, 184, 209]

abbrev Table := Byte → Byte

def V_TABLE : Table := fun x => BitVec.ofNat 8 (V_BYTES.getD x.toNat 0)

abbrev Window := Fin 5 → Byte

def window (data : List Byte) (k : ℕ) : Window := fun j => data.getD (k + j) 0

def windows (data : List Byte) : List Window := (List.range (data.length - 4)).map (window data)

/-- Three inputs and a salt go through the permutation. -/
def b_mapping (salt i j k : Byte) : Byte :=
  let h := V_TABLE (0 ^^^ salt)
  let h := V_TABLE (h ^^^ i)
  let h := V_TABLE (h ^^^ j)
  V_TABLE (h ^^^ k)

abbrev Buckets := BitVec 7 → U32

/-- The low seven bits. -/
def bucket (idx : Byte) : BitVec 7 := (idx &&& 0x7F).setWidth 7

def bucket_window (buckets : Buckets) (p : Window) : Buckets :=
  [(2, p 0, p 1, p 2), (3, p 0, p 1, p 3), (5, p 0, p 2, p 3), (7, p 0, p 2, p 4),
    (11, p 0, p 1, p 4), (13, p 0, p 3, p 4)].foldl
    (fun buckets (m : Byte × Byte × Byte × Byte) =>
      bump buckets (bucket (b_mapping m.1 m.2.1 m.2.2.1 m.2.2.2))) buckets

def build_buckets_naive (data : List Byte) : Buckets × Byte :=
  if data.length < 5 then (zeros, 0)
  else (windows data).foldl
    (fun s w => (bucket_window s.1 w, b_mapping s.2 (w 0) (w 1) 0)) (zeros, 0)

def vv : Table := fun x => V_TABLE (V_TABLE x)

def step (first a b : Byte) : Byte := V_TABLE (V_TABLE (first ^^^ a) ^^^ b)

/-- The chain runs on what the last lookup is made of. -/
def chain_checksum (data : List Byte) (windows : ℕ) : Byte :=
  let h := step (V_TABLE 0) (data.getD 0 0) (data.getD 1 0)
  let pairs := ((data.take windows).drop 1).zip ((data.take (windows + 1)).drop 2)
  V_TABLE (pairs.foldl (fun h p => step (vv h) p.1 p.2) h)

/-- The first two lookups for each salt, by the first byte of the window. -/
abbrev FirstLookups := Fin 6 → Table

def SALTS : Fin 6 → Byte := ![2, 3, 5, 7, 11, 13]

def FirstLookups.new : FirstLookups := fun s a => V_TABLE (V_TABLE (SALTS s) ^^^ a)

/-- The last lookup gives the bucket. -/
def LOW : Table := fun x => V_TABLE x &&& 0x7F

def last (first b c : Byte) : Byte := LOW (V_TABLE (first ^^^ b) ^^^ c)

def updates (f : FirstLookups) (p : Window) : List Byte :=
  [last (f 0 (p 0)) (p 1) (p 2), last (f 1 (p 0)) (p 1) (p 3), last (f 2 (p 0)) (p 2) (p 3),
    last (f 3 (p 0)) (p 2) (p 4), last (f 4 (p 0)) (p 1) (p 4), last (f 5 (p 0)) (p 3) (p 4)]

/-- The first half of 256 counters. -/
def lower (counts : Byte → U32) : Buckets := fun i => counts (i.setWidth 8)

def count_scalar (f : FirstLookups) (data : List Byte) : Buckets :=
  lower ((windows data).foldl (fun counts p => (updates f p).foldl bump counts) zeros)

abbrev Reg := Fin 64 → Byte

/-- The six low bits of an index choose a byte, the next one between two registers. -/
def permutex2var_epi8 (a idx b : Reg) : Reg := fun i =>
  let at6 : Fin 64 := ⟨(idx i).toNat % 64, Nat.mod_lt _ (by decide)⟩
  if (idx i).getLsbD 6 then b at6 else a at6

def movepi8_mask (a : Reg) : Fin 64 → Bool := fun i => (a i).msb

def mask_blend_epi8 (mask : Fin 64 → Bool) (a b : Reg) : Reg := fun i => if mask i then b i else a i

def xor_si512 (a b : Reg) : Reg := fun i => a i ^^^ b i

/-- A table in four registers. -/
def table (t : Table) : Fin 4 → Reg := fun k i => t (BitVec.ofNat 8 (64 * k + i))

def lookup (t : Fin 4 → Reg) (idx : Reg) : Reg :=
  let lo := permutex2var_epi8 (t 0) idx (t 1)
  let hi := permutex2var_epi8 (t 2) idx (t 3)
  mask_blend_epi8 (movepi8_mask idx) lo hi

def load (data : List Byte) (pos : ℕ) : Reg := fun i => data.getD (pos + i) 0

/-- The salts with the other two bytes of the window. -/
def pairs : List (Fin 6 × Fin 5 × Fin 5) :=
  [(0, 1, 2), (1, 1, 3), (2, 2, 3), (3, 2, 4), (4, 1, 4), (5, 3, 4)]

/-- The buckets of 64 windows, salt by salt. -/
def block (f : FirstLookups) (data : List Byte) (pos : ℕ) : List Byte :=
  let p (k : ℕ) := load data (pos + k)
  pairs.flatMap fun m => let x := lookup (table (f m.1)) (p 0)
    let x := lookup (table V_TABLE) (xor_si512 x (p m.2.1))
    List.ofFn (lookup (table LOW) (xor_si512 x (p m.2.2)))

def vbmiLoop (f : FirstLookups) (data : List Byte) (windows pos : ℕ) (counts : Four Byte) :
    ℕ × Four Byte :=
  if pos + 64 ≤ windows then vbmiLoop f data windows (pos + 64) (counts.spread (block f data pos))
  else (pos, counts)
termination_by windows - pos

def count_vbmi (f : FirstLookups) (data : List Byte) : Buckets :=
  let windows := data.length - 4
  let (pos, counts) := vbmiLoop f data windows 0 .zeros
  let tail := if pos < windows then count_scalar f (data.drop pos) else zeros
  fun i => tail i + lower counts.c₀ i + lower counts.c₁ i + lower counts.c₂ i + lower counts.c₃ i

/-- By the vector counter where the processor has it. -/
def count (vector : Bool) (f : FirstLookups) (data : List Byte) : Buckets :=
  if vector then count_vbmi f data else count_scalar f data

def slice (data : List Byte) (a b : ℕ) : List Byte := (data.take b).drop a

def CHUNK : ℕ := 2 ^ 18

def build_buckets (vector : Bool) (data : List Byte) : Buckets × Byte :=
  if data.length < 5 then (zeros, 0)
  else
    let windows := data.length - 4
    let counts := (List.range ((windows + CHUNK - 1) / CHUNK)).map fun c =>
      count vector .new (slice data (c * CHUNK) (min ((c + 1) * CHUNK) windows + 4))
    (counts.foldl plus zeros, chain_checksum data windows)

/-- The sums of pieces of so many windows each, each piece by either counter. -/
def countPieces (data : List Byte) : ℕ → List (ℕ × Bool) → Buckets
  | _, [] => zeros
  | pos, (n, vector) :: pieces =>
    plus (count vector .new (slice data pos (pos + n + 4))) (countPieces data (pos + n) pieces)

def buckets (p : Window) : List (BitVec 7) := (updates .new p).map bucket

def run (data : List Byte) (pos n : ℕ) : List (BitVec 7) :=
  (List.range' pos n).flatMap fun k => buckets (window data k)

theorem run_append (data : List Byte) (pos n m : ℕ) :
    run data pos n ++ run data (pos + n) m = run data pos (n + m) := by
  rw [run, run, ← flatMap_append, range'_append_1, ← run]

theorem foldl_foldl_bump {α ι : Type} [DecidableEq ι] (f : α → List ι) (counts : ι → U32)
    (l : List α) : l.foldl (fun counts a => (f a).foldl bump counts) counts =
      plus counts (times (l.flatMap f)) := by
  rw [← foldl_bump, foldl_flatMap]

theorem first_lookups (s : Fin 6) (a b c : Byte) :
    last (FirstLookups.new s a) b c = b_mapping (SALTS s) a b c &&& 0x7F := by
  rw [last, LOW, FirstLookups.new, b_mapping]
  simp only [ofNat_eq_ofNat, zero_xor]

theorem bucket_bucket (b : Byte) : bucket (b &&& 0x7F) = bucket b := by
  rw [bucket, bucket, BitVec.and_assoc, BitVec.and_self]

theorem bucket_window_eq (counts : Buckets) (p : Window) :
    bucket_window counts p = (buckets p).foldl bump counts := by
  have mapped : buckets p = [(2, p 0, p 1, p 2), (3, p 0, p 1, p 3), (5, p 0, p 2, p 3),
      (7, p 0, p 2, p 4), (11, p 0, p 1, p 4), (13, p 0, p 3, p 4)].map
        fun (m : Byte × Byte × Byte × Byte) => bucket (b_mapping m.1 m.2.1 m.2.2.1 m.2.2.2) := by
    simp only [buckets, updates, map_cons, map_nil, first_lookups, bucket_bucket]
    rfl
  rw [bucket_window, mapped, foldl_map]

theorem windows_eq (data : List Byte) (h : 5 ≤ data.length) : windows data =
    window data 0 :: (List.range' 1 (data.length - 5)).map (window data) := by
  have length : data.length - 4 = data.length - 5 + 1 := by omega
  rw [windows, length, range_eq_range', range'_succ, map_cons]

theorem foldl_pair {α β γ : Type} (f : α → γ → α) (g : β → γ → β) (a : α) (b : β) (l : List γ) :
    l.foldl (fun s c => (f s.1 c, g s.2 c)) (a, b) = (l.foldl f a, l.foldl g b) := by
  induction l generalizing a b with
  | nil => rfl
  | cons c l ih => rw [foldl_cons, ih, foldl_cons, foldl_cons]

theorem build_buckets_naive_eq {data : List Byte} (h : 5 ≤ data.length) :
    build_buckets_naive data = (times (run data 0 (data.length - 4)),
      (windows data).foldl (fun c w => b_mapping c (w 0) (w 1) 0) 0) := by
  have counted : bucket_window = fun counts p => (buckets p).foldl bump counts :=
    funext₂ bucket_window_eq
  rw [build_buckets_naive, if_neg (by omega),
    foldl_pair bucket_window (fun c (w : Window) => b_mapping c (w 0) (w 1) 0), counted,
    foldl_foldl_bump, zeros_plus, windows, flatMap_map, range_eq_range', ← run]

theorem b_mapping_chain (h a b : Byte) :
    b_mapping (V_TABLE h) a b 0 = V_TABLE (step (vv h) a b) := by
  rw [b_mapping, step, vv]
  simp only [ofNat_eq_ofNat, zero_xor, xor_zero]

theorem foldl_chain (data : List Byte) (ks : List ℕ) (h : Byte) :
    (ks.map (window data)).foldl (fun c w => b_mapping c (w 0) (w 1) 0) (V_TABLE h) =
      V_TABLE ((ks.map fun k => (data.getD k 0, data.getD (k + 1) 0)).foldl
        (fun h p => step (vv h) p.1 p.2) h) := by
  induction ks generalizing h with
  | nil => rfl
  | cons k ks ih =>
    rw [map_cons, foldl_cons, map_cons, foldl_cons, ← ih, ← b_mapping_chain]
    rfl

theorem zip_neighbours (data : List Byte) {n : ℕ} (h : n + 2 ≤ data.length) :
    ((data.take (n + 1)).drop 1).zip ((data.take (n + 2)).drop 2) =
      (List.range' 1 n).map fun k => (data.getD k 0, data.getD (k + 1) 0) := by
  apply ext_getElem
  · simp only [length_zip, length_drop, length_take, length_map, length_range']
    omega
  · intro i hi hi'
    simp only [length_map, length_range'] at hi'
    rw [getElem_zip, getElem_map, getElem_range']
    rw [getElem_drop, getElem_drop, getElem_take, getElem_take,
      getD_eq_getElem _ _ (by omega), getD_eq_getElem _ _ (by omega)]
    simp only [one_mul]
    congr 2
    omega

theorem chain_checksum_eq {data : List Byte} (h : 5 ≤ data.length) :
    chain_checksum data (data.length - 4) =
      (windows data).foldl (fun c w => b_mapping c (w 0) (w 1) 0) 0 := by
  have length : data.length - 4 = data.length - 5 + 1 := by omega
  have first : b_mapping 0 (window data 0 0) (window data 0 1) 0 =
      V_TABLE (step (V_TABLE 0) (data.getD 0 0) (data.getD 1 0)) := by
    rw [b_mapping, step]
    simp only [ofNat_eq_ofNat, xor_zero]
    rfl
  rw [chain_checksum, length, zip_neighbours data (by omega), windows_eq data h, foldl_cons,
    first, foldl_chain]

theorem setWidth_injective : Function.Injective (BitVec.setWidth 8 : BitVec 7 → Byte) := by
  intro a b h
  have same := congrArg BitVec.toNat h
  have ha := a.isLt
  have hb := b.isLt
  rw [toNat_setWidth, toNat_setWidth, Nat.mod_eq_of_lt (by omega),
    Nat.mod_eq_of_lt (by omega)] at same
  exact eq_of_toNat_eq same

theorem updates_eq (p : Window) : updates .new p = (buckets p).map (BitVec.setWidth 8) := by
  have low (b : Byte) : (bucket (b &&& 0x7F)).setWidth 8 = b &&& 0x7F := by
    revert b
    decide
  simp only [buckets, updates, map_cons, map_nil, first_lookups, low]

theorem lower_times (data : List Byte) (pos n : ℕ) :
    lower (times ((List.range' pos n).flatMap fun k => updates .new (window data k))) =
      times (run data pos n) := by
  funext i
  have mapped : ((range' pos n).flatMap fun k => updates .new (window data k)) =
      (run data pos n).map (BitVec.setWidth 8) := by
    simp only [run, updates_eq, map_flatMap]
  rw [lower, mapped, times_map setWidth_injective]

theorem count_scalar_eq {data part : List Byte} {pos n : ℕ}
    (h : windows part = (List.range' pos n).map (window data)) :
    count_scalar .new part = times (run data pos n) := by
  rw [count_scalar, foldl_foldl_bump, zeros_plus, h, flatMap_map, lower_times]

theorem lookup_table (t : Table) (idx : Reg) (i : Fin 64) : lookup (table t) idx i = t (idx i) := by
  have parts (x : Byte) : BitVec.ofNat 8
      (64 * ((if x.msb then 2 else 0) + if x.getLsbD 6 then 1 else 0) + x.toNat % 64) = x := by
    revert x
    decide
  have whole := parts (idx i)
  rw [lookup, mask_blend_epi8, movepi8_mask]
  cases hm : (idx i).msb <;> cases h6 : (idx i).getLsbD 6 <;> rw [hm, h6] at whole <;>
    · simp only [permutex2var_epi8, h6, if_true, Bool.false_eq_true, if_false, table]
      exact congrArg t whole

theorem block_perm (data : List Byte) (pos : ℕ) : (block .new data pos).Perm
    ((List.range' pos 64).flatMap fun k => updates .new (window data k)) := by
  let g (m : Fin 6 × Fin 5 × Fin 5) (i : Fin 64) : Byte :=
    last (FirstLookups.new m.1 (window data (pos + i) 0)) (window data (pos + i) m.2.1)
      (window data (pos + i) m.2.2)
  have byRow : block .new data pos = pairs.flatMap fun m => (finRange 64).map (g m) := by
    rw [block]
    apply flatMap_congr
    intro m _
    rw [ofFn_eq_map]
    apply map_congr_left
    intro i _
    rw [lookup_table, xor_si512, lookup_table, xor_si512, lookup_table]
    simp only [g, last, load, window, Fin.val_zero, add_zero, add_assoc, add_comm i.val]
  have byColumn : ((finRange 64).flatMap fun i => pairs.map (g · i)) =
      (range' pos 64).flatMap fun k => updates .new (window data k) := by
    have positions : range' pos 64 = (finRange 64).map fun i => pos + i.val := by
      apply ext_getElem
      · simp
      · intro i hi hi'
        simp
    rw [positions, flatMap_map]
    rfl
  rw [byRow, ← byColumn]
  exact flatMap_perm pairs (finRange 64) g

theorem vbmiLoop_spec (data : List Byte) (windows pos : ℕ) (counts : Four Byte)
    (h : pos ≤ windows) : pos ≤ (vbmiLoop .new data windows pos counts).1 ∧
      (vbmiLoop .new data windows pos counts).1 ≤ windows ∧
      (vbmiLoop .new data windows pos counts).2.total = plus counts.total
        (times ((List.range' pos ((vbmiLoop .new data windows pos counts).1 - pos)).flatMap
          fun k => updates .new (window data k))) := by
  induction hn : windows - pos using Nat.strong_induction_on generalizing pos counts with
  | _ n ih =>
    subst hn
    rw [vbmiLoop]
    split_ifs with more
    · obtain ⟨low, high, total⟩ := ih _ (by omega) (pos + 64) (counts.spread (block .new data pos))
        more rfl
      have whole : (block .new data pos).length % 4 = 0 := by
        rw [(block_perm data pos).length_eq, length_flatMap]
        simp only [updates, length_cons, length_nil, map_const', sum_replicate, length_range']
        rfl
      have rest : 64 + ((vbmiLoop .new data windows (pos + 64)
          (counts.spread (block .new data pos))).1 - (pos + 64)) =
          (vbmiLoop .new data windows (pos + 64) (counts.spread (block .new data pos))).1 - pos := by
        omega
      refine ⟨by omega, high, ?_⟩
      rw [total, Four.total_spread _ _ whole, plus_assoc, times_perm (block_perm data pos),
        ← times_append, ← flatMap_append, range'_append_1, rest]
    · refine ⟨le_rfl, h, ?_⟩
      rw [Nat.sub_self]
      exact (plus_zeros _).symm

theorem windows_slice {data : List Byte} {pos n : ℕ} (h : pos + n + 4 ≤ data.length) :
    windows (slice data pos (pos + n + 4)) = (List.range' pos n).map (window data) := by
  have length : (slice data pos (pos + n + 4)).length - 4 = n := by
    rw [slice, length_drop, length_take]
    omega
  rw [windows, length]
  apply ext_getElem
  · simp
  · intro i hi hi'
    simp only [length_map, length_range] at hi
    rw [getElem_map, getElem_map, getElem_range, getElem_range']
    funext j
    have hj := j.isLt
    rw [window, window, slice, getD_eq_getElem?_getD, getD_eq_getElem?_getD,
      getElem?_drop, getElem?_take_of_lt (by omega), one_mul, add_assoc]

theorem slice_all (data : List Byte) (pos : ℕ) : slice data pos data.length = data.drop pos := by
  rw [slice, take_length]

theorem count_vbmi_eq (part : List Byte) : count_vbmi .new part = count_scalar .new part := by
  obtain ⟨-, high, total⟩ := vbmiLoop_spec part (part.length - 4) 0 .zeros (Nat.zero_le _)
  rw [count_vbmi]
  rcases hl : vbmiLoop .new part (part.length - 4) 0 .zeros with ⟨stop, counts⟩
  rw [hl] at high total
  dsimp only at high total ⊢
  have all : count_scalar .new part = times (run part 0 (part.length - 4)) := by
    apply count_scalar_eq
    rw [windows, range_eq_range']
  have tail : (if stop < part.length - 4 then count_scalar .new (part.drop stop) else zeros) =
      times (run part stop (part.length - 4 - stop)) := by
    split_ifs with more
    · apply count_scalar_eq
      have fits : stop + (part.length - 4 - stop) + 4 = part.length := by omega
      have sliced := @windows_slice part _ _ (le_of_eq fits)
      rwa [fits, slice_all] at sliced
    · have none : part.length - 4 - stop = 0 := by omega
      rw [none]
      rfl
  have blocks : lower counts.total = times (run part 0 stop) := by
    rw [total, ← lower_times, Nat.sub_zero]
    exact congrArg lower (zeros_plus _)
  rw [tail, all, ← Nat.add_sub_of_le high, ← run_append, times_append, zero_add, ← blocks]
  funext i
  simp only [plus, lower, Four.total, Nat.add_sub_cancel_left]
  ac_rfl

theorem count_slice (vector : Bool) {data : List Byte} {pos n : ℕ} (h : pos + n + 4 ≤ data.length) :
    count vector .new (slice data pos (pos + n + 4)) = times (run data pos n) := by
  have scalar := count_scalar_eq (windows_slice h)
  cases vector with
  | false => exact scalar
  | true => exact (count_vbmi_eq _).trans scalar

theorem run_chunks (data : List Byte) (windows m : ℕ) : ((List.range m).flatMap fun c =>
      run data (c * CHUNK) (min ((c + 1) * CHUNK) windows - c * CHUNK)) =
        run data 0 (min (m * CHUNK) windows) := by
  induction m with
  | zero => simp [run]
  | succ m ih =>
    rw [range_succ, flatMap_append, ih, flatMap_singleton]
    have grows : m * CHUNK ≤ (m + 1) * CHUNK := Nat.mul_le_mul_right _ (Nat.le_succ m)
    rcases le_total (m * CHUNK) windows with inside | behind
    · rw [min_eq_left inside]
      have start : run data (m * CHUNK) (min ((m + 1) * CHUNK) windows - m * CHUNK) =
          run data (0 + m * CHUNK) (min ((m + 1) * CHUNK) windows - m * CHUNK) := by
        rw [zero_add]
      rw [start, run_append, Nat.add_sub_of_le (le_min grows inside)]
    · rw [min_eq_right behind, min_eq_right (behind.trans grows), Nat.sub_eq_zero_of_le behind]
      exact append_nil _

theorem build_buckets_eq (vector : Bool) (data : List Byte) :
    build_buckets vector data = build_buckets_naive data := by
  by_cases h : data.length < 5
  · rw [build_buckets, build_buckets_naive, if_pos h, if_pos h]
  have h5 : 5 ≤ data.length := not_lt.mp h
  rw [build_buckets, if_neg h, build_buckets_naive_eq h5]
  dsimp only
  rw [chain_checksum_eq h5]
  congr 1
  have pos : 0 < CHUNK := by decide
  have chunk : ∀ c ∈ range ((data.length - 4 + CHUNK - 1) / CHUNK),
      count vector .new (slice data (c * CHUNK) (min ((c + 1) * CHUNK) (data.length - 4) + 4)) =
        times (run data (c * CHUNK) (min ((c + 1) * CHUNK) (data.length - 4) - c * CHUNK)) := by
    intro c hc
    -- every chunk has a window
    have begins : c * CHUNK ≤ data.length - 4 := by
      have within := mem_range.mp hc
      have least := (Nat.le_div_iff_mul_le pos).mp (Nat.succ_le_of_lt within)
      rw [Nat.succ_mul] at least
      omega
    have grows : c * CHUNK ≤ (c + 1) * CHUNK := Nat.mul_le_mul_right _ (Nat.le_succ c)
    have stop : c * CHUNK + (min ((c + 1) * CHUNK) (data.length - 4) - c * CHUNK) + 4 =
        min ((c + 1) * CHUNK) (data.length - 4) + 4 := by
      rw [Nat.add_sub_of_le (le_min grows begins)]
    have fits : min ((c + 1) * CHUNK) (data.length - 4) + 4 ≤ data.length := by
      have := min_le_right ((c + 1) * CHUNK) (data.length - 4)
      omega
    rw [← stop]
    exact count_slice vector (le_of_eq_of_le stop fits)
  rw [map_congr_left chunk]
  have joined := foldl_plus (zeros : Buckets)
    ((range ((data.length - 4 + CHUNK - 1) / CHUNK)).map fun c =>
      run data (c * CHUNK) (min ((c + 1) * CHUNK) (data.length - 4) - c * CHUNK))
  rw [map_map] at joined
  have covers : min ((data.length - 4 + CHUNK - 1) / CHUNK * CHUNK) (data.length - 4) =
      data.length - 4 := by
    apply min_eq_right
    have bound := Nat.lt_div_mul_add (a := data.length - 4 + CHUNK - 1) pos
    omega
  exact joined.trans (by rw [zeros_plus, ← flatMap_def, run_chunks, covers])

theorem countPieces_eq (data : List Byte) (pieces : List (ℕ × Bool)) (pos : ℕ)
    (h : pos + (pieces.map Prod.fst).sum + 4 ≤ data.length) :
    countPieces data pos pieces = times (run data pos (pieces.map Prod.fst).sum) := by
  induction pieces generalizing pos with
  | nil => rfl
  | cons piece pieces ih =>
    obtain ⟨n, vector⟩ := piece
    rw [map_cons, sum_cons] at h ⊢
    dsimp only at h ⊢
    rw [countPieces, count_slice vector (by omega), ih (pos + n) (by omega), ← times_append,
      run_append]

/-- The front end gives the buckets and the checksum of the plain pass, by either counter, and
however the windows are split the pieces add up to its buckets. -/
theorem front_end_is_plain (data : List Byte) (h : 5 ≤ data.length) :
    (∀ vector, build_buckets vector data = build_buckets_naive data) ∧
      ∀ pieces : List (ℕ × Bool), (pieces.map Prod.fst).sum = data.length - 4 →
        countPieces data 0 pieces = (build_buckets_naive data).1 := by
  refine ⟨fun vector => build_buckets_eq vector data, fun pieces hs => ?_⟩
  rw [countPieces_eq data pieces 0 (by omega), hs, build_buckets_naive_eq h]

theorem front_end_of_six : build_buckets true [7, 1, 7, 1, 7, 1] =
      build_buckets_naive [7, 1, 7, 1, 7, 1] ∧
    countPieces [7, 1, 7, 1, 7, 1] 0 [(1, false), (1, true)] =
      (build_buckets_naive [7, 1, 7, 1, 7, 1]).1 := by
  obtain ⟨whole, split⟩ := front_end_is_plain [7, 1, 7, 1, 7, 1] (by decide)
  exact ⟨whole true, split [(1, false), (1, true)] (by decide)⟩

end Tlsh
