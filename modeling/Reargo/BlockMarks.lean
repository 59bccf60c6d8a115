import Reargo.BlockFlowAgree

/-!
# Blocks from marks

The marks of a lift whose addresses strictly increase say which instructions start a block,
and the blocks built from them are those built from the external entries.
-/
namespace BlockMarks

open PcodeModel BlockShapes BlockFlow BlockIndexRuns BlockCfg BlockFlowSound BlockFlowAgree List
open Bool (and_eq_true)
open Option (getD_some map_some)
open BitVec hiding append_assoc cast not_or or_assoc and_comm
open ControlFlow (LiftedInstruction)

section Searches

variable {addrs : List U64} {t : U64} {lo hi origin : ℕ}

variable (lo hi) in
theorem binarySearch_slice (h : addrs.Pairwise (· < ·))
    (hin : ∀ i, addrs[i]? = some t → lo ≤ i ∧ i < hi) :
    (binarySearch (slice addrs lo hi) t).map (lo + ·) = binarySearch addrs t := by
  have hslice : (slice addrs lo hi).Pairwise (· < ·) := by
    unfold slice
    exact (h.sublist (take_sublist _ _)).sublist (drop_sublist _ _)
  refine Option.ext fun i => ?_
  rw [binarySearch_eq_some h, Option.map_eq_some_iff]
  constructor
  · rintro ⟨j, hj, rfl⟩
    rw [binarySearch_eq_some hslice] at hj
    unfold slice at hj
    rw [List.getElem?_drop, List.getElem?_take] at hj
    split at hj
    · exact hj
    · cases hj
  · intro hi'
    obtain ⟨hlo, hhi⟩ := hin i hi'
    refine ⟨i - lo, ?_, Nat.add_sub_cancel' hlo⟩
    rw [binarySearch_eq_some hslice]
    unfold slice
    rw [getElem?_drop, getElem?_take, Nat.add_sub_cancel' hlo, if_pos hhi, hi']

theorem slice_length (lo : ℕ) : slice addrs lo addrs.length = addrs.drop lo := by
  unfold slice
  rw [take_length]

variable (h : addrs.Pairwise (· < ·))

include h

theorem place_le {i j : ℕ} (hi : addrs[i]? = some t)
    (hj : j < addrs.length) : (addrs.getD j 0 ≤ t ↔ j ≤ i) ∧ (t ≤ addrs.getD j 0 ↔ i ≤ j) := by
  obtain ⟨hlt, rfl⟩ := List.getElem?_eq_some_iff.mp hi
  rw [getD_eq_getElem _ _ hj]
  have hmono := pairwise_iff_getElem.mp h
  rcases Nat.lt_trichotomy i j with hij | rfl | hij
  · have := hmono i j hlt hj hij
    exact ⟨⟨fun hle => absurd this (not_lt.mpr hle), fun hle => by omega⟩,
      ⟨fun _ => hij.le, fun _ => this.le⟩⟩
  · exact ⟨⟨fun _ => le_refl _, fun _ => le_refl _⟩, ⟨fun _ => le_refl _, fun _ => le_refl _⟩⟩
  · have := hmono j i hj hlt hij
    exact ⟨⟨fun _ => hij.le, fun _ => this.le⟩,
      ⟨fun hle => absurd this (not_lt.mpr hle), fun hle => by omega⟩⟩

theorem findUp_eq (k : ℕ) (hlo : lo < addrs.length)
    (hle : addrs.getD lo 0 ≤ t) : findUp addrs origin t lo k = binarySearch addrs t := by
  induction lo, k using findUp.induct addrs origin t with
  | case1 lo k hi hend =>
    unfold findUp
    dsimp only
    rw [if_pos hend, ← slice_length]
    refine binarySearch_slice _ _ h fun i hi' => ⟨((place_le h hi' hlo).1).mp hle, ?_⟩
    exact (List.getElem?_eq_some_iff.mp hi').1
  | case2 lo k hi hend hpast =>
    unfold findUp
    dsimp only
    rw [if_neg hend, if_pos hpast]
    refine binarySearch_slice _ _ h fun i hi' => ⟨((place_le h hi' hlo).1).mp hle, ?_⟩
    have := ((place_le h hi' (not_le.mp hend)).2).mp hpast
    exact Nat.lt_succ_of_le this
  | case3 lo k hi hend hpast ih =>
    unfold findUp
    dsimp only
    rw [if_neg hend, if_neg hpast]
    exact ih (not_le.mp hend) (not_le.mp hpast).le

theorem findDown_eq (k : ℕ) (horigin : origin < addrs.length)
    (hhi : hi < addrs.length) (hgt : t < addrs.getD hi 0) :
    findDown addrs origin t hi k = binarySearch addrs t := by
  induction hi, k using findDown.induct addrs origin t with
  | case1 hi k hend =>
    unfold findDown
    rw [if_pos hend]
    have hcut := binarySearch_slice 0 hi h fun i hi' => ⟨Nat.zero_le i, by
      by_contra hge
      exact absurd hgt (not_lt.mpr (((place_le h hi' hhi).1).mpr (not_lt.mp hge)))⟩
    rw [← hcut]
    unfold slice
    rw [drop_zero]
    simp
  | case2 hi k hend lo hle =>
    unfold findDown
    dsimp only
    rw [if_neg hend, if_pos hle]
    refine binarySearch_slice _ _ h fun i hi' => ⟨((place_le h hi' ?_).1).mp hle, ?_⟩
    · exact lt_of_le_of_lt (Nat.sub_le _ _) horigin
    · by_contra hge
      exact absurd hgt (not_lt.mpr (((place_le h hi' hhi).1).mpr (not_lt.mp hge)))
  | case3 hi k hend lo hle ih =>
    unfold findDown
    dsimp only
    rw [if_neg hend, if_neg hle]
    exact ih (lt_of_le_of_lt (Nat.sub_le _ _) horigin) (not_le.mp hle)

theorem findNear_eq (horigin : origin < addrs.length) (t : U64) :
    findNear addrs origin t = binarySearch addrs t := by
  unfold findNear
  split
  · next hle => exact findUp_eq h 0 horigin hle
  · next hgt => exact findDown_eq h 0 horigin horigin (not_le.mp hgt)

end Searches

variable {k : ℕ}

section Words

def byteSet (word : U64) (k : ℕ) : Bool :=
  (List.range 8).any fun j => word.getLsbD (8 * k + j)

theorem byteSet_iff {word : U64} :
    byteSet word k = true ↔ ∃ j < 8, word.getLsbD (8 * k + j) = true := by
  unfold byteSet
  rw [any_eq_true]
  exact ⟨fun ⟨j, hj, h⟩ => ⟨j, mem_range.mp hj, h⟩, fun ⟨j, hj, h⟩ => ⟨j, mem_range.mpr hj, h⟩⟩

theorem byteSet_clear (word : U64) (hk : k < 8) (c : ℕ) :
    byteSet (word &&& ~~~((0xff : U64) <<< (8 * k))) c =
      if c = k then false else byteSet word c := by
  have hmask : ∀ b < 64, ((0xff : U64) <<< (8 * k)).getLsbD b = decide (8 * k ≤ b ∧ b < 8 * k + 8) := by
    intro b hb
    rw [getLsbD_shiftLeft]
    have hff : ∀ i : ℕ, (0xff : U64).getLsbD i = decide (i < 8) := by
      intro i
      by_cases hi : i < 64
      · interval_cases i <;> decide
      · rw [getLsbD_of_ge _ _ (not_lt.mp hi), decide_eq_false (by omega)]
    rw [hff, decide_eq_true hb]
    by_cases hle : b < 8 * k
    · simp [hle]
    · have : (b - 8 * k < 8) ↔ b < 8 * k + 8 := by omega
      simp [hle, this, not_lt.mp hle]
  have hbit : ∀ b < 64, (word &&& ~~~((0xff : U64) <<< (8 * k))).getLsbD b =
      (word.getLsbD b && !decide (8 * k ≤ b ∧ b < 8 * k + 8)) := by
    intro b hb
    rw [getLsbD_and, getLsbD_not, hmask b hb, decide_eq_true hb, Bool.true_and]
  rw [Bool.eq_iff_iff, byteSet_iff]
  constructor
  · rintro ⟨j, hj, hset⟩
    by_cases hb : 8 * c + j < 64
    · rw [hbit _ hb, and_eq_true, Bool.not_eq_true', decide_eq_false_iff_not] at hset
      have hck : c ≠ k := by
        rintro rfl
        exact hset.2 ⟨Nat.le_add_right _ _, Nat.add_lt_add_left hj _⟩
      rw [if_neg hck]
      exact byteSet_iff.mpr ⟨j, hj, hset.1⟩
    · rw [getLsbD_of_ge _ _ (not_lt.mp hb)] at hset
      cases hset
  · intro h
    by_cases hck : c = k
    · rw [if_pos hck] at h
      cases h
    · rw [if_neg hck] at h
      obtain ⟨j, hj, hset⟩ := byteSet_iff.mp h
      have hb : 8 * c + j < 64 := by
        by_contra hb
        rw [getLsbD_of_ge _ _ (not_lt.mp hb)] at hset
        cases hset
      refine ⟨j, hj, ?_⟩
      rw [hbit _ hb, hset, decide_eq_false (by omega)]
      rfl

theorem byteSet_ctz {word : U64} (h : word ≠ 0) :
    word.ctz.toNat / 8 < 8 ∧ byteSet word (word.ctz.toNat / 8) = true ∧
      ∀ c < word.ctz.toNat / 8, byteSet word c = false := by
  have hlt : word.ctz.toNat < 64 := by
    have := ctz_lt_iff_ne_zero.mpr h
    rw [lt_def] at this
    simpa using this
  refine ⟨by omega, byteSet_iff.mpr ⟨word.ctz.toNat % 8, Nat.mod_lt _ (by decide), ?_⟩, ?_⟩
  · rw [Nat.div_add_mod]
    exact getLsbD_true_ctz_of_ne_zero h
  · intro c hc
    by_contra hset
    rw [Bool.not_eq_false] at hset
    obtain ⟨j, hj, hbit⟩ := byteSet_iff.mp hset
    rw [getLsbD_false_of_lt_ctz (by omega)] at hbit
    cases hbit

theorem byteSet_zero (k : ℕ) : byteSet 0 k = false := by
  by_contra h
  rw [Bool.not_eq_false] at h
  obtain ⟨j, -, hj⟩ := byteSet_iff.mp h
  simp at hj

theorem nonzeroBytes_from (fuel m : ℕ) (word : U64) (hfuel : 8 ≤ m + fuel) (hm : m ≤ 8)
    (hbelow : ∀ c < m, byteSet word c = false) :
    nonzeroBytes word fuel = (List.range' m (8 - m)).filter (byteSet word) := by
  induction fuel generalizing m word with
  | zero =>
    obtain rfl : m = 8 := by omega
    rfl
  | succ fuel ih =>
    unfold nonzeroBytes
    by_cases hzero : word = 0
    · subst hzero
      rw [if_pos rfl, eq_comm, filter_eq_nil_iff]
      intro k _
      rw [byteSet_zero]
      exact Bool.false_ne_true
    · obtain ⟨hk, hset, hfirst⟩ := byteSet_ctz hzero
      rw [if_neg hzero]
      dsimp only
      generalize word.ctz.toNat / 8 = k at hk hset hfirst
      have hmk : m ≤ k := by
        by_contra hlt
        rw [hbelow k (not_le.mp hlt)] at hset
        cases hset
      have hrest := ih (k + 1) (word &&& ~~~((0xff : U64) <<< (8 * k))) (by omega) (by omega)
        fun c hc => by
          rw [byteSet_clear word hk]
          split
          · rfl
          · exact hfirst c (by omega)
      rw [hrest]
      have hsplit : range' m (8 - m) =
          range' m (k - m) ++ k :: range' (k + 1) (8 - (k + 1)) := by
        have : 8 - m = (k - m) + (1 + (8 - (k + 1))) := by omega
        rw [this, ← range'_append_1, Nat.add_sub_cancel' hmk, ← range'_append_1]
        rfl
      have hnone : (range' m (k - m)).filter (byteSet word) = [] := by
        refine filter_eq_nil_iff.mpr fun c hc => ?_
        obtain ⟨-, hlt⟩ := mem_range'_1.mp hc
        rw [hfirst c (by omega)]
        exact Bool.false_ne_true
      rw [hsplit, filter_append, hnone, nil_append, filter_cons_of_pos hset]
      congr 1
      refine filter_congr fun c hc => ?_
      obtain ⟨hlo, -⟩ := mem_range'_1.mp hc
      rw [byteSet_clear word hk, if_neg (by omega)]

theorem testBit_leNat (bs : List Byte) (k : ℕ) {j : ℕ} (hj : j < 8) :
    (LittleEndian.leNat bs).testBit (8 * k + j) = (bs.getD k 0).getLsbD j := by
  induction bs generalizing k with
  | nil => simp [LittleEndian.leNat]
  | cons b bs ih =>
    have hcons : LittleEndian.leNat (b :: bs) = 2 ^ 8 * LittleEndian.leNat bs + b.toNat := by
      rw [LittleEndian.leNat, add_comm]
      rfl
    rw [hcons, Nat.testBit_two_pow_mul_add _ b.isLt]
    cases k with
    | zero =>
      rw [Nat.mul_zero, Nat.zero_add, if_pos hj]
      rfl
    | succ k =>
      rw [if_neg (by omega), show 8 * (k + 1) + j - 8 = 8 * k + j by omega, ih]
      rfl

theorem getLsbD_wordOf (chunk : List Byte) {j : ℕ} (hk : k < 8) (hj : j < 8) :
    (wordOf chunk).getLsbD (8 * k + j) = (chunk.getD k 0).getLsbD j := by
  unfold wordOf
  rw [getLsbD_ofNat, decide_eq_true (by omega), Bool.true_and, testBit_leNat _ _ hj]

theorem getLsbD_wideMask {j : ℕ} (hk : k < 8) (hj : j < 8) :
    wideMask.getLsbD (8 * k + j) = startMask.getLsbD j := by
  change (wordOf (List.replicate 8 startMask)).getLsbD _ = _
  rw [getLsbD_wordOf _ hk hj, List.getD_eq_getElem?_getD, List.getElem?_replicate, if_pos hk,
    getD_some]

theorem hasBit_iff (f m : Byte) :
    hasBit f m = true ↔ ∃ j < 8, f.getLsbD j = true ∧ m.getLsbD j = true := by
  unfold hasBit
  rw [decide_eq_true_eq]
  constructor
  · intro hne
    by_contra hnone
    push Not at hnone
    refine hne (eq_of_getLsbD_eq fun j hj => ?_)
    rw [getLsbD_and, show BitVec.getLsbD (0 : Byte) j = false from getLsbD_zero]
    by_contra hset
    rw [Bool.not_eq_false, and_eq_true] at hset
    exact hnone j hj hset.1 hset.2
  · rintro ⟨j, -, hf, hm⟩ hzero
    have hbit : (f &&& m).getLsbD j = false := by
      rw [hzero]
      exact getLsbD_zero
    rw [getLsbD_and, hf, hm] at hbit
    cases hbit

theorem byteSet_masked (chunk : List Byte) (hk : k < 8) :
    byteSet (wordOf chunk &&& wideMask) k = hasBit (chunk.getD k 0) startMask := by
  rw [Bool.eq_iff_iff, byteSet_iff, hasBit_iff]
  refine exists_congr fun j => and_congr_right fun hj => ?_
  rw [getLsbD_and, getLsbD_wordOf _ hk hj, getLsbD_wideMask hk hj, and_eq_true]

def marked (flags : List Byte) (i : ℕ) : Bool :=
  decide (0 < i) && hasBit (flags.getD i 0) startMask

theorem scanChunk_eq (flags : List Byte) (c : ℕ) :
    ((nonzeroBytes (wordOf (slice flags (8 * c) (8 * c + 8)) &&& wideMask) 8).map
      fun k => 8 * c + k).filter (fun i => 0 < i) =
        (List.range' (8 * c) 8).filter (marked flags) := by
  rw [nonzeroBytes_from 8 0 _ (by omega) (by omega) fun c hc => absurd hc (Nat.not_lt_zero _)]
  have hrange : List.range' (8 * c) 8 = (List.range' 0 8).map fun k => 8 * c + k := by
    rw [map_add_range']
    rfl
  rw [hrange, filter_map, filter_map, filter_filter]
  congr 1
  refine filter_congr fun k hk => ?_
  obtain ⟨-, hk'⟩ := mem_range'_1.mp hk
  have hslice : (slice flags (8 * c) (8 * c + 8)).getD k 0 = flags.getD (8 * c + k) 0 := by
    unfold slice
    rw [getD_eq_getElem?_getD, getElem?_drop, getElem?_take, if_pos (by omega),
      ← getD_eq_getElem?_getD]
  rw [byteSet_masked _ (by omega), hslice]
  rfl

theorem scanChunks_eq (flags : List Byte) (m c : ℕ) :
    scanChunks c ((List.range m).map fun i => slice flags (8 * (c + i)) (8 * (c + i) + 8)) =
      (List.range' (8 * c) (8 * m)).filter (marked flags) := by
  induction m generalizing c with
  | zero => rfl
  | succ m ih =>
    have htail : (range m).map (fun i => slice flags (8 * (c + (i + 1))) (8 * (c + (i + 1)) + 8)) =
        (range m).map fun i => slice flags (8 * (c + 1 + i)) (8 * (c + 1 + i) + 8) := by
      refine map_congr_left fun i _ => ?_
      rw [show c + (i + 1) = c + 1 + i by omega]
    rw [range_succ_eq_map, map_cons, map_map]
    change scanChunks c (slice flags (8 * (c + 0)) (8 * (c + 0) + 8) ::
      (range m).map fun i => slice flags (8 * (c + (i + 1))) (8 * (c + (i + 1)) + 8)) = _
    rw [htail, add_zero]
    unfold scanChunks
    rw [scanChunk_eq, ih (c + 1), Nat.mul_succ 8 m, add_comm (8 * m) 8, ← range'_append_1,
      filter_append]
    rfl

theorem markedStarts_eq (flags : List Byte) :
    markedStarts flags = 0 :: (List.range flags.length).filter (marked flags) := by
  have hlen : flags.length - (flags.drop (8 * (flags.length / 8))).length =
      8 * (flags.length / 8) := by
    rw [length_drop]
    omega
  have hrest : (((flags.drop (8 * (flags.length / 8))).zipIdx.filter fun e =>
      0 < 8 * (flags.length / 8) + e.2 ∧ e.1 &&& startMask ≠ 0).map
        fun e => 8 * (flags.length / 8) + e.2) =
      (range' (8 * (flags.length / 8)) (flags.length - 8 * (flags.length / 8))).filter
        (marked flags) := by
    generalize 8 * (flags.length / 8) = t
    have hzip : (flags.drop t).zipIdx =
        (range' 0 (flags.length - t)).map fun i => (flags.getD (t + i) 0, i) := by
      refine ext_getElem? fun i => ?_
      rw [getElem?_zipIdx, getElem?_map, getElem?_drop, ← range_eq_range']
      by_cases hi : t + i < flags.length
      · rw [List.getElem?_range (by omega), map_some, getD_eq_getElem _ _ hi,
          List.getElem?_eq_getElem hi]
        simp
      · rw [List.getElem?_eq_none (not_lt.mp hi), List.getElem?_eq_none]
        · rfl
        · rw [length_range]
          omega
    have hrange : List.range' t (flags.length - t) =
        (List.range' 0 (flags.length - t)).map fun i => t + i := by
      rw [map_add_range']
      rfl
    rw [hzip, hrange, filter_map, filter_map, map_map]
    congr 1
    refine filter_congr fun i _ => ?_
    unfold marked hasBit
    exact Bool.decide_and _ _
  have hchunks := scanChunks_eq flags (flags.length / 8) 0
  simp only [Nat.zero_add, Nat.mul_zero] at hchunks
  unfold markedStarts chunksExact
  dsimp only
  rw [hlen, hrest, hchunks, append_assoc, ← filter_append, range_eq_range']
  have hall : List.range' 0 (8 * (flags.length / 8)) ++
      List.range' (0 + 8 * (flags.length / 8)) (flags.length - 8 * (flags.length / 8)) =
        range' 0 (8 * (flags.length / 8) + (flags.length - 8 * (flags.length / 8))) :=
    range'_append_1
  rw [zero_add, Nat.add_sub_cancel' (Nat.mul_div_le _ _)] at hall
  rw [hall]
  rfl

end Words

section Flags

open LiftMarks

theorem mark_length (flags : List Byte) (i : ℕ) (m : Byte) :
    (mark flags i m).length = flags.length := length_modify ..

theorem hasBit_mark (flags : List Byte) (i j : ℕ) (m b : Byte) :
    hasBit ((mark flags i m).getD j 0) b = (hasBit (flags.getD j 0) b ||
        (decide (i = j) && decide (j < flags.length) && hasBit m b)) := by
  unfold mark
  rw [getD_eq_getElem?_getD, getElem?_modify, getD_eq_getElem?_getD]
  by_cases hj : j < flags.length
  · rw [List.getElem?_eq_getElem hj, Option.map_eq_map, map_some, getD_some,
      getD_some]
    by_cases hij : i = j
    · simp [hij, hj, hasBit_or]
    · simp [hij]
  · rw [List.getElem?_eq_none (not_lt.mp hj)]
    simp [hj]

theorem foldl_markFound {α : Type} (g : α → Option ℕ) (m b : Byte) (l : List α)
    (flags : List Byte) :
    (l.foldl (fun flags a => markFound flags (g a) m) flags).length = flags.length ∧
      ∀ j, hasBit ((l.foldl (fun flags a => markFound flags (g a) m) flags).getD j 0) b =
        (hasBit (flags.getD j 0) b ||
          ((l.any fun a => decide (g a = some j)) && decide (j < flags.length) && hasBit m b)) := by
  induction l generalizing flags with
  | nil => exact ⟨rfl, fun j => by simp⟩
  | cons a l ih =>
    have hone : (markFound flags (g a) m).length = flags.length ∧
        ∀ j, hasBit ((markFound flags (g a) m).getD j 0) b = (hasBit (flags.getD j 0) b ||
            (decide (g a = some j) && decide (j < flags.length) && hasBit m b)) := by
      cases hg : g a with
      | none => exact ⟨rfl, fun j => by simp [markFound]⟩
      | some i =>
        refine ⟨mark_length flags i m, fun j => ?_⟩
        have hsome : decide (some i = some j) = decide (i = j) :=
          decide_eq_decide.mpr (Option.some_inj)
        rw [hsome]
        exact hasBit_mark flags i j m b
    obtain ⟨hlen, hbit⟩ := ih (markFound flags (g a) m)
    refine ⟨by rw [foldl_cons, hlen, hone.1], fun j => ?_⟩
    rw [foldl_cons, hbit, hone.1, hone.2, any_cons]
    cases hasBit m b <;> cases decide (j < flags.length) <;> cases decide (g a = some j) <;> simp

theorem foldl_markSpecial (shape : LiftShape) (owns : ℕ → Bool) {b : Byte}
    (hb : hasBit ownedCall b = false) (l : List ℕ)
    (acc : List Byte × List ℕ × List (U64 × Bool)) :
    (l.foldl (markSpecial shape owns) acc).1.length = acc.1.length ∧
      ∀ j, hasBit ((l.foldl (markSpecial shape owns) acc).1.getD j 0) b =
        (hasBit (acc.1.getD j 0) b || ((l.any fun i => shape.endsBlock i && decide (i + 1 = j)) &&
            decide (j < shape.addrs.length) && decide (j < acc.1.length) && hasBit afterEnd b)) := by
  induction l generalizing acc with
  | nil => exact ⟨rfl, fun j => by simp⟩
  | cons i l ih =>
    obtain ⟨after, hdef⟩ : ∃ after, (if shape.endsBlock i = true ∧ i + 1 < shape.addrs.length then
      mark acc.1 (i + 1) afterEnd else acc.1) = after := ⟨_, rfl⟩
    have hafter : after.length = acc.1.length ∧ ∀ j, hasBit (after.getD j 0) b =
        (hasBit (acc.1.getD j 0) b || (shape.endsBlock i && decide (i + 1 = j) &&
          decide (j < shape.addrs.length) && decide (j < acc.1.length) && hasBit afterEnd b)) := by
      subst hdef
      by_cases hends : shape.endsBlock i = true
      · by_cases hlt : i + 1 < shape.addrs.length
        · rw [if_pos ⟨hends, hlt⟩, hends]
          refine ⟨mark_length .., fun j => ?_⟩
          rw [hasBit_mark]
          by_cases hij : i + 1 = j
          · simp [hij, hij ▸ hlt]
          · simp [hij]
        · rw [if_neg fun hc => hlt hc.2]
          refine ⟨rfl, fun j => ?_⟩
          by_cases hij : i + 1 = j
          · simp [hij ▸ hlt]
          · simp [hij]
      · rw [if_neg fun hc => hends hc.1]
        exact ⟨rfl, fun j => by simp [hends]⟩
    have hone : (markSpecial shape owns acc i).1.length = after.length ∧
        ∀ j, hasBit ((markSpecial shape owns acc i).1.getD j 0) b = hasBit (after.getD j 0) b := by
      unfold markSpecial
      dsimp only
      rw [hdef]
      split
      · split
        · refine ⟨mark_length .., fun j => ?_⟩
          rw [hasBit_mark, hb, Bool.and_false, Bool.or_false]
        · exact ⟨rfl, fun _ => rfl⟩
      · exact ⟨rfl, fun _ => rfl⟩
    obtain ⟨hlen, hbit⟩ := ih (markSpecial shape owns acc i)
    have hlen' := hone.1.trans hafter.1
    refine ⟨by rw [foldl_cons, hlen, hlen'], fun j => ?_⟩
    rw [foldl_cons, hbit, hlen', hone.2, hafter.2, any_cons]
    cases hasBit afterEnd b <;> cases decide (j < acc.1.length) <;>
      cases decide (j < shape.addrs.length) <;> cases shape.endsBlock i <;>
      cases decide (i + 1 = j) <;> simp

end Flags

section Marks

variable {insns : List LiftedInstruction} {external : List U64} {owns : ℕ → Bool}
  {find? : Option (U64 → Option ℕ)}

def shapeOf (insns : List LiftedInstruction) (find? : Option (U64 → Option ℕ)) : LiftShape :=
  { LiftShape.of insns with finder := find? }

/-- The finder finds what is there. -/
def Finds (insns : List LiftedInstruction) (find? : Option (U64 → Option ℕ)) : Prop :=
  ∀ f ∈ find?, ∀ a, f a = binarySearch (insns.map LiftedInstruction.address) a

variable (hinc : (insns.map LiftedInstruction.address).Pairwise (· < ·)) (hfind : Finds insns find?)
include hinc hfind

theorem targetIdx_eq : (LiftMarks.new (shapeOf insns find?) external owns).targetIdx =
    (LiftShape.of insns).branches.map fun e => binarySearch (LiftShape.of insns).addrs e.2 := by
  have hsorted : (LiftShape.of insns).addrs.Pairwise (· < ·) := addrs_eq insns ▸ hinc
  cases find? with
  | none =>
    refine map_congr_left fun e he => findNear_eq hsorted ?_ e.2
    rw [length_addrs]
    change e ∈ (LiftShape.of insns).branches at he
    rw [branches_eq] at he
    obtain ⟨x, hx, hmem⟩ := mem_flatMap.mp he
    obtain ⟨t, -, rfl⟩ := mem_map.mp hmem
    exact (List.getElem?_eq_some_iff.mp (mem_zipIdx_iff_getElem?.mp hx)).1
  | some f =>
    refine map_congr_left fun e _ => ?_
    rw [addrs_eq]
    exact hfind f rfl e.2

variable (external owns) in
theorem flags_eq {b : Byte} (hb : hasBit LiftMarks.ownedCall b = false) :
    (LiftMarks.new (shapeOf insns find?) external owns).flags.length = insns.length ∧
      ∀ j < insns.length,
        (hasBit ((LiftMarks.new (shapeOf insns find?) external owns).flags.getD j 0) b = true ↔
          (hasBit LiftMarks.target b = true ∧
            ∃ t ∈ (LiftShape.of insns).branches, (LiftShape.of insns).addrs[j]? = some t.2) ∨
          (hasBit LiftMarks.external b = true ∧
            ∃ a ∈ external, (LiftShape.of insns).addrs[j]? = some a) ∨
          (hasBit LiftMarks.afterEnd b = true ∧
            ∃ i, j = i + 1 ∧ hasBit ((LiftShape.of insns).flag i) InsnShape.ends = true)) := by
  have hsorted : (LiftShape.of insns).addrs.Pairwise (· < ·) := addrs_eq insns ▸ hinc
  have hnew : ∃ zeros : List Byte, zeros.length = insns.length ∧
      (∀ j, hasBit (zeros.getD j 0) b = false) ∧
      (LiftMarks.new (shapeOf insns find?) external owns).flags =
        ((LiftShape.of insns).special.foldl (LiftMarks.markSpecial (shapeOf insns find?) owns)
          (external.foldl (fun flags a => LiftMarks.markFound flags
              (binarySearch (LiftShape.of insns).addrs a) LiftMarks.external)
            ((LiftMarks.new (shapeOf insns find?) external owns).targetIdx.foldl

    (fun flags i => LiftMarks.markFound flags (id i) LiftMarks.target) zeros), [], [])).1 := by
    refine ⟨List.replicate (LiftShape.of insns).addrs.length 0, ?_, fun j => ?_, ?_⟩
    · rw [length_replicate, length_addrs]
    · rw [getD_eq_getElem?_getD, getElem?_replicate]
      unfold hasBit
      split <;> simp
    · cases find? with
      | none => rfl
      | some f =>
        have hf : f = binarySearch (LiftShape.of insns).addrs := by
          funext a
          rw [addrs_eq]
          exact hfind f rfl a
        rw [← hf]
        rfl
  obtain ⟨zeros, hlen, hzero, hnew⟩ := hnew
  have hspecial : ∀ i, (LiftShape.of insns).endsBlock i = true →
      i ∈ (LiftShape.of insns).special := by
    intro i hi
    have hbit : hasBit ((LiftShape.of insns).flag i) InsnShape.ends = true := hi
    have hlt : i < insns.length := by
      by_contra hge
      have hzero : (LiftShape.of insns).flag i = 0 := by
        refine getD_eq_default _ _ ?_
        change (insns.map _).length ≤ i
        rw [length_map]
        exact not_lt.mp hge
      rw [hzero] at hbit
      revert hbit
      decide
    have hget := List.getElem?_eq_getElem hlt
    have hflag : (LiftShape.of insns).flag i = (InsnShape.of insns[i]).flags := by
      change ((insns.map fun insn => (InsnShape.of insn).flags).getD i 0) = _
      rw [List.getD_eq_getElem?_getD, List.getElem?_map, hget]
      rfl
    refine mem_map.mpr ⟨(insns[i], i), mem_filter.mpr
      ⟨mem_zipIdx_iff_getElem?.mpr hget, decide_eq_true fun hzero => ?_⟩, rfl⟩
    rw [hflag, hzero] at hbit
    revert hbit
    decide
  have haddrs : (shapeOf insns find?).addrs.length = insns.length := length_addrs insns
  have hlen₁ := fun l => (foldl_markFound id LiftMarks.target b l zeros).1.trans hlen
  have hlen₂ := fun l l' => (foldl_markFound (binarySearch (LiftShape.of insns).addrs)
    LiftMarks.external b l (List.foldl _ zeros l')).1.trans (hlen₁ l')
  rw [hnew]
  refine ⟨((foldl_markSpecial _ owns hb _ _).1).trans (hlen₂ ..), fun j hj => ?_⟩
  rw [(foldl_markSpecial _ owns hb _ _).2 j]
  dsimp only
  rw [(foldl_markFound _ _ b external _).2 j, (foldl_markFound id _ b _ zeros).2 j, hlen₂, hlen₁,
    hlen, hzero, haddrs, decide_eq_true hj, Bool.false_or, Bool.and_true, Bool.and_true,
    Bool.and_true, Bool.and_true, Bool.or_eq_true, Bool.or_eq_true, and_eq_true,
    and_eq_true, and_eq_true, or_assoc]
  refine or_congr ?_ (or_congr ?_ ?_)
  · rw [and_comm, targetIdx_eq hinc hfind, any_map, any_eq_true]
    refine and_congr_right fun _ => exists_congr fun t => and_congr_right fun _ => ?_
    exact decide_eq_true_iff.trans (binarySearch_eq_some hsorted)
  · rw [and_comm, any_eq_true]
    refine and_congr_right fun _ => exists_congr fun a => and_congr_right fun _ => ?_
    exact decide_eq_true_iff.trans (binarySearch_eq_some hsorted)
  · rw [and_comm, any_eq_true]
    refine and_congr_right fun _ => ?_
    constructor
    · rintro ⟨i, -, hi⟩
      rw [and_eq_true, decide_eq_true_eq] at hi
      exact ⟨i, hi.2.symm, hi.1⟩
    · rintro ⟨i, rfl, hi⟩
      refine ⟨i, hspecial i hi, ?_⟩
      rw [and_eq_true, decide_eq_true_eq]
      exact ⟨hi, rfl⟩

theorem markedStarts_new (hne : insns ≠ []) :
    markedStarts (LiftMarks.new (shapeOf insns find?) external owns).flags =
      startsOf insns external := by
  obtain ⟨hlen, hbit⟩ := flags_eq external owns hinc hfind (b := startMask) (by decide)
  have hpos : 0 < insns.length := length_pos_of_ne_nil hne
  rw [markedStarts_eq]
  refine eq_of_sorted ?_ (startsOf_sorted insns external) fun i => ?_
  · refine pairwise_cons.mpr ⟨fun i hi => ?_, pairwise_lt_range.filter _⟩
    have := (mem_filter.mp hi).2
    unfold marked at this
    rw [and_eq_true, decide_eq_true_eq] at this
    exact this.1
  · rw [mem_startsOf hinc, mem_cons, mem_filter, mem_range, hlen]
    unfold marked IsStart
    rw [and_eq_true, decide_eq_true_eq]
    have htarget : hasBit LiftMarks.target startMask = true := by decide
    have hexternal : hasBit LiftMarks.external startMask = true := by decide
    have hafter : hasBit LiftMarks.afterEnd startMask = true := by decide
    by_cases hi : i < insns.length
    · rw [hbit i hi]
      simp only [htarget, hexternal, hafter, true_and, hi]
      constructor
      · rintro (rfl | ⟨-, h | h | h⟩)
        · exact .inl rfl
        · exact .inr (.inr (.inl h))
        · exact .inr (.inl h)
        · exact .inr (.inr (.inr h))
      · rintro (rfl | h)
        · exact .inl rfl
        · rcases Nat.eq_zero_or_pos i with rfl | hi0
          · exact .inl rfl
          · refine .inr ⟨hi0, ?_⟩
            rcases h with h | h | h
            · exact .inr (.inl h)
            · exact .inl h
            · exact .inr (.inr h)
    · constructor
      · rintro (rfl | ⟨hlt, -⟩)
        · exact absurd hpos hi
        · exact absurd hlt hi
      · exact fun h => absurd h.1 hi

end Marks

section Table

variable {l : List (ℕ × ℕ)}

theorem foldl_set_of_notMem {j : ℕ} (hj : j ∉ l.map Prod.fst) (table : List ℕ) :
    (l.foldl (fun t e => t.set e.1 e.2) table).getD j 0 = table.getD j 0 := by
  induction l generalizing table with
  | nil => rfl
  | cons e l ih =>
    rw [map_cons, mem_cons, not_or] at hj
    rw [foldl_cons, ih hj.2, getD_eq_getElem?_getD, getElem?_set_ne (Ne.symm hj.1),
      ← getD_eq_getElem?_getD]

theorem foldl_set_of_mem (hnodup : (l.map Prod.fst).Nodup) (table : List ℕ)
    (hlt : ∀ e ∈ l, e.1 < table.length) {e : ℕ × ℕ} (he : e ∈ l) :
    (l.foldl (fun t e => t.set e.1 e.2) table).getD e.1 0 = e.2 := by
  induction l generalizing table with
  | nil => cases he
  | cons x l ih =>
    rw [map_cons, nodup_cons] at hnodup
    rw [foldl_cons]
    rcases mem_cons.mp he with rfl | he
    · rw [foldl_set_of_notMem hnodup.1, getD_set _ _ _ _ _ (hlt e mem_cons_self), if_pos rfl]
    · exact ih hnodup.2 _ (fun y hy => by
        rw [length_set]
        exact hlt y (mem_cons_of_mem _ hy)) he

theorem blockAt_start {startIdx : List ℕ} (hnodup : startIdx.Nodup) (table : List ℕ)
    (hlt : ∀ i ∈ startIdx, i < table.length) {i : ℕ} (hk : startIdx[k]? = some i) :
    (startIdx.zipIdx.foldl (fun at' e => at'.set e.1 e.2) table).getD i 0 = k := by
  have hmem : (i, k) ∈ startIdx.zipIdx := mem_zipIdx_iff_getElem?.mpr hk
  refine foldl_set_of_mem ?_ table (fun e he => ?_) hmem
  · rwa [zipIdx_map_fst]
  · exact hlt e.1 (mem_of_getElem? (mem_zipIdx_iff_getElem?.mp he))

end Table

section Edges

variable {α β : Type} {shape shape' : LiftShape} {n : ℕ} {startIdx : List ℕ}
  {blockOf : α → Option ℕ} {blockOf' : β → Option ℕ} {targets : List (ℕ × α)}

variable (shape shape' blockOf') in
theorem blockEdges_map (hs : startIdx.Pairwise (· < ·)) (hlt : ∀ x ∈ startIdx, x < n)
    (h0 : boundary startIdx n 0 = 0) (hstops : shape.stops = shape'.stops) (g : α → β)
    (hg : ∀ t ∈ targets, blockOf' (g t.2) = blockOf t.2) :
    (blockEdges shape' n startIdx blockOf' (targets.map fun t => (t.1, g t.2))).succs =
        (blockEdges shape n startIdx blockOf targets).succs ∧
      (blockEdges shape' n startIdx blockOf' (targets.map fun t => (t.1, g t.2))).succAt =
        (blockEdges shape n startIdx blockOf targets).succAt ∧
      (blockEdges shape' n startIdx blockOf' (targets.map fun t => (t.1, g t.2))).brBlock =
        (blockEdges shape n startIdx blockOf targets).brBlock ∧
      (blockEdges shape' n startIdx blockOf' (targets.map fun t => (t.1, g t.2))).brAt =
        (blockEdges shape n startIdx blockOf targets).brAt := by
  have hjumps : jumpsOf n startIdx blockOf' (targets.map fun t => (t.1, g t.2)) =
      jumpsOf n startIdx blockOf targets := by
    funext b
    unfold jumpsOf
    rw [dropWhile_map, takeWhile_map, map_map]
    refine map_congr_left fun t ht => ?_
    have hmem : t ∈ targets :=
      (dropWhile_subset _) ((takeWhile_subset _) ht)
    exact hg t hmem
  have hsuccs : succsAt shape' n startIdx blockOf' (targets.map fun t => (t.1, g t.2)) =
      succsAt shape n startIdx blockOf targets := by
    funext b
    unfold succsAt
    rw [hjumps, hstops]
  rw [blockEdges_eq hs hlt h0, blockEdges_eq hs hlt h0, hjumps, hsuccs]
  exact ⟨rfl, rfl, rfl, rfl⟩

end Edges

section Built

variable {insns : List LiftedInstruction} {external : List U64} {inBody : U64 → Bool}
  {owns : ℕ → Bool} {find? : Option (U64 → Option ℕ)}

variable (hinc : (insns.map LiftedInstruction.address).Pairwise (· < ·))

include hinc

theorem startAddr_at {a : U64} : binarySearch ((startsOf insns external).map
        fun i => (LiftShape.of insns).addrs.getD i 0) a = some k ↔
      ∃ i, (startsOf insns external)[k]? = some i ∧ (LiftShape.of insns).addrs[i]? = some a := by
  rw [binarySearch_eq_some (startAddr_sorted hinc), List.getElem?_map, Option.map_eq_some_iff]
  refine exists_congr fun i => and_congr_right fun hi => ?_
  have hlt : i < (LiftShape.of insns).addrs.length := by
    rw [length_addrs]
    exact startsOf_lt (List.mem_of_getElem? hi)
  rw [getD_eq_getElem _ _ hlt, List.getElem?_eq_getElem hlt, Option.some.injEq]

variable (external) in
theorem blockOf_target (table : List ℕ) (htable : insns.length ≤ table.length) {t : ℕ × U64}
    (ht : t ∈ (LiftShape.of insns).branches) :
    ((binarySearch (LiftShape.of insns).addrs t.2).bind fun i =>
      if i < insns.length then
        some (((startsOf insns external).zipIdx.foldl (fun at' e => at'.set e.1 e.2)
          table).getD i 0)
      else none) =
      binarySearch ((startsOf insns external).map fun i => (LiftShape.of insns).addrs.getD i 0)
        t.2 := by
  have hsorted : (LiftShape.of insns).addrs.Pairwise (· < ·) := addrs_eq insns ▸ hinc
  cases hsearch : binarySearch (LiftShape.of insns).addrs t.2 with
  | none =>
    refine (Option.eq_none_iff_forall_ne_some.mpr fun k hk => ?_).symm
    obtain ⟨i, -, hi⟩ := (startAddr_at hinc).mp hk
    rw [(binarySearch_eq_some hsorted).mpr hi] at hsearch
    cases hsearch
  | some i =>
    have hi := (binarySearch_eq_some hsorted).mp hsearch
    have hlt : i < insns.length := by
      rw [← length_addrs]
      exact (List.getElem?_eq_some_iff.mp hi).1
    have hmem : i ∈ startsOf insns external :=
      (mem_startsOf hinc).mpr ⟨hlt, .inr (.inr (.inl ⟨t, ht, hi⟩))⟩
    obtain ⟨k, hk⟩ := mem_iff_getElem?.mp hmem
    have hnodup := (startsOf_sorted insns external).imp fun h => ne_of_lt h
    rw [Option.bind_some, if_pos hlt, (startAddr_at hinc).mpr ⟨i, hk, hi⟩,
      blockAt_start hnodup table (fun x hx => (startsOf_lt hx).trans_le htable) hk]

theorem buildMarked_eq (hfind : Finds insns find?) (hne : insns ≠ []) :
    Cfg.buildMarked (shapeOf insns find?) (LiftMarks.new (shapeOf insns find?) external owns)
      inBody = Cfg.buildShaped (shapeOf insns find?) external inBody := by
  change _ = Cfg.build insns external inBody
  obtain ⟨hlen, -⟩ := flags_eq external owns hinc hfind (b := startMask) (by decide)
  obtain ⟨h0, -⟩ := boundary_zero external hinc hne
  have hsorted := startsOf_sorted insns external
  have hlt : ∀ x ∈ startsOf insns external, x < insns.length := fun x hx => startsOf_lt hx
  have hn : ((shapeOf insns find?).addrs.take (shapeOf insns find?).addrs.length) =
      (LiftShape.of insns).addrs := take_length
  have hflags : (LiftMarks.new (shapeOf insns find?) external owns).flags.take insns.length =
      (LiftMarks.new (shapeOf insns find?) external owns).flags := by
    rw [← hlen, take_length]
  have hbranches : (shapeOf insns find?).branches.takeWhile (fun t => t.1 < insns.length) =
      (LiftShape.of insns).branches := by
    refine takeWhile_eq_self_iff.mpr fun t ht => decide_eq_true ?_
    change t ∈ (LiftShape.of insns).branches at ht
    rw [branches_eq] at ht
    obtain ⟨x, hx, hmem⟩ := mem_flatMap.mp ht
    obtain ⟨a, -, rfl⟩ := mem_map.mp hmem
    exact (List.getElem?_eq_some_iff.mp (mem_zipIdx_iff_getElem?.mp hx)).1
  have hzip : (LiftShape.of insns).branches.zipWith (fun t i => (t.1, i))
      (LiftMarks.new (shapeOf insns find?) external owns).targetIdx =
        (LiftShape.of insns).branches.map fun t =>
          (t.1, binarySearch (LiftShape.of insns).addrs t.2) := by
    rw [targetIdx_eq hinc hfind, zipWith_map_right, zipWith_self]
  unfold Cfg.buildMarked Cfg.buildMarkedUpto Cfg.buildMarkedUptoWith
  dsimp only
  rw [hn, length_addrs, if_neg (by have := length_pos_of_ne_nil hne; omega), hflags,
    markedStarts_new hinc hfind hne, hbranches, hzip, build_eq hinc hne]
  dsimp only
  obtain ⟨hsuccs, hsuccAt, hbrBlock, hbrAt⟩ := blockEdges_map (LiftShape.of insns)
    (shapeOf insns find?)
    (fun i : Option ℕ => i.bind fun i => if i < insns.length then
      some (((startsOf insns external).zipIdx.foldl (fun (at' : List ℕ) e => at'.set e.1 e.2)
        ([] ++ List.replicate (insns.length - ([] : List ℕ).length) 0)).getD i 0) else none)
    hsorted hlt h0 rfl (binarySearch (LiftShape.of insns).addrs)
    fun t ht => blockOf_target external hinc
      ([] ++ List.replicate (insns.length - ([] : List ℕ).length) 0)
      (by rw [nil_append, length_replicate]; exact le_refl _) ht
  generalize blockEdges (shapeOf insns find?) _ _ _ _ = e at hsuccs hsuccAt hbrBlock hbrAt ⊢
  generalize blockEdges (LiftShape.of insns) _ _ _ _ = e' at hsuccs hsuccAt hbrBlock hbrAt ⊢
  have hreached : e.reached (startsOf insns external).length =
      e'.reached (startsOf insns external).length := by
    unfold BlockEdges.reached
    have hnext : e.succsOf = e'.succsOf := by
      funext b
      unfold BlockEdges.succsOf
      rw [hsuccs, hsuccAt]
    rw [hnext]
  have hunknown : ∀ b ∈ range (startsOf insns external).length,
      decide ((LiftMarks.new (shapeOf insns find?) external owns).flags.getD
          ((startsOf insns external).getD b 0) 0 &&& LiftMarks.external ≠ 0) =
        decide (((startsOf insns external).map fun i =>
          (LiftShape.of insns).addrs.getD i 0).getD b 0 ∈ external) := by
    intro b hb
    have hb' := mem_range.mp hb
    have hget := List.getElem?_eq_getElem hb'
    have hj : (startsOf insns external)[b] < insns.length := startsOf_lt (getElem_mem hb')
    have hj' : (startsOf insns external)[b] < (LiftShape.of insns).addrs.length := by
      rwa [length_addrs]
    obtain ⟨-, hbit⟩ := flags_eq external owns hinc hfind (b := LiftMarks.external) (by decide)
    have haddr : ((startsOf insns external).map fun i =>
        (LiftShape.of insns).addrs.getD i 0).getD b 0 =
          (LiftShape.of insns).addrs[(startsOf insns external)[b]] := by
      rw [getD_eq_getElem?_getD, getElem?_map, hget, map_some, getD_some,
        getD_eq_getElem _ _ hj']
    rw [getD_eq_getElem _ _ hb', haddr, Bool.eq_iff_iff]
    refine (hbit _ hj).trans ?_
    have htarget : hasBit LiftMarks.target LiftMarks.external = false := by decide
    have hafter : hasBit LiftMarks.afterEnd LiftMarks.external = false := by decide
    have hself : hasBit LiftMarks.external LiftMarks.external = true := by decide
    rw [htarget, hafter, hself, List.getElem?_eq_getElem hj', decide_eq_true_eq]
    simp
  unfold Cfg.ofEdges
  rw [hsuccs, hsuccAt, hbrBlock, hbrAt, hreached]
  congr 1
  · exact map_congr_left fun b hb => by rw [hunknown b hb]
  · exact congrArg unknownBlocksOf (map_congr_left fun b hb => by rw [hunknown b hb])

end Built

section Same

variable {insns : List LiftedInstruction} {external : List U64} {inBody : U64 → Bool}

/-- The walk by block number records what the walk keyed by addresses does, visit for visit,
and the marks give the blocks the external entries give. -/
def SameFlow (insns : List LiftedInstruction) (external : List U64) (inBody : U64 → Bool) : Prop :=
  (∀ (S T : Type) [FlowState S] [DecidableEq S] (snapshot : S → T),
    (∃ fuel o, propagateLegacy fuel insns external inBody snapshot = some o) ∧
    ∀ fuel, propagateCfg fuel (Cfg.build insns external inBody) insns snapshot =
      propagateLegacy fuel insns external inBody snapshot) ∧
  ∀ owns find?, Finds insns find? →
    Cfg.buildMarked (shapeOf insns find?) (LiftMarks.new (shapeOf insns find?) external owns)
      inBody = Cfg.buildShaped (shapeOf insns find?) external inBody

theorem flowKeepsLast_of_below (hinc : (insns.map LiftedInstruction.address).Pairwise (· < ·))
    (hne : insns ≠ []) (hbelow : ∀ x ∈ insns, x.address ≠ -1) :
    FlowKeepsLast (Cfg.build insns external inBody) insns := by
  intro k _
  have hmem : ∀ e ∈ blockInsns (Cfg.build insns external inBody) insns k, e.1 ∈ insns := by
    intro e he
    have hzip : e ∈ insns.zipIdx := mem_of_mem_take (mem_of_mem_drop he)
    exact mem_of_getElem? (mem_zipIdx_iff_getElem?.mp hzip)
  refine ⟨fun e he hmax => absurd hmax (hbelow e.1 (hmem e he)),
    fun e he hmax => absurd hmax (hbelow e.1 (hmem e he)), fun hstart => ?_⟩
  obtain ⟨_, _, _, x, -, hx, haddr, -⟩ := exists_boundary hinc hne (mem_of_getElem? hstart)
  exact absurd haddr (hbelow x (mem_of_getElem? hx))

/-- The walk by block number refines the walk keyed by addresses, and the blocks from marks
are the blocks from entries: for a lift with instructions, or without external entries, where
what is at the last address there is matters to no block the flow enters. -/
theorem propagateCfg_refines_legacy (insns : List LiftedInstruction) (external : List U64)
    (inBody : U64 → Bool) (hinc : (insns.map LiftedInstruction.address).Pairwise (· < ·))
    (hempty : insns = [] → external = [])
    (hkeeps : FlowKeepsLast (Cfg.build insns external inBody) insns) :
    SameFlow insns external inBody := by
  cases insns with
  | nil =>
    obtain rfl := hempty rfl
    exact ⟨fun S T _ _ snapshot => ⟨⟨0, ⟨[], []⟩, rfl⟩, fun fuel => rfl⟩, fun owns find? _ => rfl⟩
  | cons first rest =>
    refine ⟨fun S T _ _ snapshot => ?_, fun owns find? hfind =>
      buildMarked_eq hinc hfind (cons_ne_nil _ _)⟩
    have heq := fun fuel =>
      @propagateCfg_eq_legacy (first :: rest) external inBody _ first hinc rfl rfl S T _ _ hkeeps fuel
        snapshot
    obtain ⟨fuel, o, hrun, -⟩ :=
      soundFlow_of_increasing external inBody hinc (cons_ne_nil _ _) S T snapshot
    exact ⟨⟨fuel, o, (heq fuel).symm.trans hrun⟩, heq⟩

/-- A call and a return, in the middle of memory. -/
theorem propagateCfg_refines_legacy_call :
    SameFlow [⟨0x1000, 5, "call", [⟨.call, none, [⟨.ram, 0x2000, 8⟩]⟩]⟩,
      ⟨0x1005, 1, "ret", [⟨.return, none, [⟨.const, 0, 8⟩]⟩]⟩] [0x1005] fun _ => true :=
  propagateCfg_refines_legacy _ _ _ (by decide) (fun h => by cases h)
    (flowKeepsLast_of_below (by decide) (cons_ne_nil _ _) (by decide))

def lastByteLift : List LiftedInstruction :=
  [⟨0xfffffffffffffffe, 1, "nop", []⟩,
    ⟨0xffffffffffffffff, 1, "call", [⟨.call, none, [⟨.ram, 0x1000, 8⟩]⟩]⟩]

/-- The walk keyed by addresses takes the last address for the end of all blocks, and misses
the call there. -/
theorem lastByteLift_not_same : ¬ SameFlow lastByteLift [] fun _ => false := by
  intro hsame
  have hone := (hsame.1 Known Known id).2 1
  revert hone
  decide +kernel

end Same

end BlockMarks
