import Reargo.FirstEntries
import Reargo.PcodeModel

/-!
# Instructions put in address order

Instructions in runs are put into the slots of a buffer in the order of their addresses,
of each address the first. Where the addresses lie close together an instruction's slot is
the number of addresses below its own, read from a bit for each address; elsewhere the
instructions are sorted. A slot that no write has reached is `none`.
-/
namespace SlotPlacement

open PcodeModel OrderedMap FirstEntries Option
open List hiding lookup any_eq_false any_eq_true append_assoc lookup_append lookup_eq_none_iff mem_map
open BitVec hiding and_comm

variable {α : Type*}

/-- Instructions with their addresses. -/
abbrev Run (α : Type*) := List (U64 × α)

/-- What a slot holds once it is written: nothing when a repeat left it. -/
abbrev Slot (α : Type*) := Option (U64 × α)

abbrev Share (α : Type*) := List (Option (Slot α))

def countOnes (w : U64) : ℕ := (List.range 64).countP fun i => w.getLsbD i

def wordOf (off : U64) : ℕ := off.toNat / 64
def bitOf (off : U64) : U64 := (1 : U64) <<< (off.toNat % 64)

/-- The bit of an instruction's address, counted from `lo`. -/
def mark (lo : U64) (there : List U64) (e : U64 × α) : List U64 :=
  there.modify (wordOf (e.1 - lo)) fun w => w ||| bitOf (e.1 - lo)

/-- The addresses in the words before each. -/
def countBefore : ℕ → List U64 → List ℕ
  | _, [] => []
  | n, w :: ws => n :: countBefore (n + countOnes w) ws

def countAll (ws : List U64) : ℕ := ws.foldl (fun n w => n + countOnes w) 0

def rank (there : List U64) (before : List ℕ) (off : U64) : ℕ :=
  before.getD (wordOf off) 0 + countOnes (there.getD (wordOf off) 0 &&& (bitOf off - 1))

/-- The bits of the addresses not placed yet, and the slots. -/
structure Placing (α : Type*) where
  unplaced : List U64
  share : Share α

def place (lo : U64) (there : List U64) (before : List ℕ) (s : Placing α) (e : U64 × α) :
    Placing α :=
  let off := e.1 - lo
  if s.unplaced.getD (wordOf off) 0 &&& bitOf off ≠ 0 then
    ⟨s.unplaced.modify (wordOf off) fun w => w &&& ~~~ bitOf off,
      s.share.set (rank there before off) (some (some e))⟩
  else s

/-- How many slots are filled, and the slots. -/
def putDense (lo hi : U64) (items : Run α) (share : Share α) : ℕ × Share α :=
  let words := (hi - lo).toNat / 64 + 1
  let there := items.foldl (mark lo) (List.replicate words 0)
  let before := countBefore 0 there
  (countAll there, (items.foldl (place lo there before) ⟨there, share⟩).share)

def putSparse (items : Run α) (share : Share α) : ℕ × Share α :=
  let all := firsts items
  (all.length, all.map (fun e => some (some e)) ++ share.drop all.length)

/-- The lowest and the highest address. -/
def bounds (items : Run α) : U64 × U64 :=
  items.foldl (fun b e => (min b.1 e.1, max b.2 e.1)) (BitVec.allOnes 64, 0)

def closeTogether (lo hi : U64) (count : ℕ) : Bool :=
  (hi - lo).toNat / 64 ≤ min (count * 4 + 1024) (2 ^ 64 - 1) ∧ count < 2 ^ 32 - 1

/-- The slots after those filled hold nothing. -/
def clearRest (filled : ℕ × Share α) : Share α :=
  filled.2.take filled.1 ++ (filled.2.drop filled.1).map fun _ => some none

def putInOrder (old : Run α) (runs : List (Run α)) (share : Share α) : Share α :=
  let items := old ++ runs.flatten
  let b := bounds items
  let count := old.length + (runs.map List.length).sum
  clearRest (if b.1 > b.2 then (0, share)
    else if closeTogether b.1 b.2 count then putDense b.1 b.2 items share
    else putSparse items share)

def bitAt (ws : List U64) (i : ℕ) : Bool := (ws.getD (i / 64) 0).getLsbD (i % 64)

section Bits

theorem getLsbD_bitOf (off : U64) {j : ℕ} (hj : j < 64) :
    (bitOf off).getLsbD j = decide (j = off.toNat % 64) := by
  have hone : ∀ i, (1 : U64).getLsbD i = decide (i = 0) := by
    intro i
    simp
  unfold bitOf
  rw [getLsbD_shiftLeft, hone, Bool.eq_iff_iff]
  simp only [Bool.and_eq_true, Bool.not_eq_true', decide_eq_true_eq, decide_eq_false_iff_not]
  omega

theorem and_bitOf_ne_zero (w off : U64) :
    w &&& bitOf off ≠ 0 ↔ w.getLsbD (off.toNat % 64) = true := by
  have hmod : off.toNat % 64 < 64 := Nat.mod_lt _ (by decide)
  constructor
  · intro hne
    by_contra hbit
    apply hne
    apply eq_of_getLsbD_eq
    intro j hj
    rw [getLsbD_and, getLsbD_bitOf off hj]
    by_cases hjo : j = off.toNat % 64
    · rw [hjo, Bool.eq_false_iff.mpr hbit]
      simp
    · simp [hjo]
  · intro hbit hzero
    have hj := congrArg (fun x => x.getLsbD (off.toNat % 64)) hzero
    simp only [getLsbD_and, getLsbD_bitOf off hmod, hbit] at hj
    simp at hj

theorem bitAt_modify (ws : List U64) (off : U64) (f : U64 → U64) (i : ℕ) :
    bitAt (ws.modify (wordOf off) f) i = if i / 64 = wordOf off ∧ wordOf off < ws.length then
        (f (ws.getD (wordOf off) 0)).getLsbD (i % 64)
      else bitAt ws i := by
  unfold bitAt
  rw [getD_eq_getElem?_getD, getElem?_modify, getD_eq_getElem?_getD,
    getD_eq_getElem?_getD]
  by_cases hi : i / 64 = wordOf off
  · rw [hi]
    by_cases hlen : wordOf off < ws.length
    · rw [if_pos ⟨rfl, hlen⟩, List.getElem?_eq_getElem hlen]
      simp
    · rw [if_neg fun h => hlen h.2, List.getElem?_eq_none (by omega)]
      rfl
  · have hne : ¬ wordOf off = i / 64 := fun h => hi h.symm
    rw [if_neg fun h => hi h.1]
    simp only [hne, if_false]
    cases ws[i / 64]? <;> rfl

theorem bitAt_mark (lo : U64) (ws : List U64) (e : U64 × α) (hlen : wordOf (e.1 - lo) < ws.length)
    (i : ℕ) : bitAt (mark lo ws e) i = (bitAt ws i || decide ((e.1 - lo).toNat = i)) := by
  unfold mark
  rw [bitAt_modify]
  by_cases hi : i / 64 = wordOf (e.1 - lo)
  · have hmod : i % 64 < 64 := Nat.mod_lt _ (by decide)
    have hiff : i % 64 = (e.1 - lo).toNat % 64 ↔ (e.1 - lo).toNat = i := by
      unfold wordOf at hi
      omega
    rw [if_pos ⟨hi, hlen⟩, getLsbD_or, getLsbD_bitOf _ hmod]
    simp only [hiff]
    unfold bitAt
    rw [hi]
  · have hne : (e.1 - lo).toNat ≠ i := fun h => hi (by rw [← h]; rfl)
    rw [if_neg fun h => hi h.1, decide_eq_false hne, Bool.or_false]

theorem length_foldl_mark (lo : U64) (items : Run α) (ws : List U64) :
    (items.foldl (mark lo) ws).length = ws.length := by
  induction items generalizing ws with
  | nil => rfl
  | cons e items ih =>
    rw [foldl_cons, ih]
    exact length_modify _ _ _

theorem bitAt_foldl_mark (lo : U64) (items : Run α) (ws : List U64)
    (hlen : ∀ e ∈ items, wordOf (e.1 - lo) < ws.length) (i : ℕ) :
    bitAt (items.foldl (mark lo) ws) i =
      (bitAt ws i || items.any fun e => (e.1 - lo).toNat = i) := by
  induction items generalizing ws with
  | nil => simp
  | cons e items ih =>
    have hmark : (mark lo ws e).length = ws.length := length_modify _ _ _
    rw [foldl_cons, ih _ fun x hx => by
        rw [hmark]
        exact hlen x (mem_cons_of_mem _ hx),
      bitAt_mark lo ws e (hlen e mem_cons_self), any_cons, Bool.or_assoc]

theorem bitAt_replicate (n i : ℕ) : bitAt (List.replicate n 0) i = false := by
  unfold bitAt
  rw [getD_eq_getElem?_getD, getElem?_replicate]
  split <;> simp

end Bits

section Ranks

theorem countP_range_add (n k : ℕ) (p : ℕ → Bool) : (List.range (n + k)).countP p =
      (List.range n).countP p + (List.range k).countP fun i => p (n + i) := by
  rw [range_add, countP_append, countP_map]
  rfl

theorem countP_range_zero (k : ℕ) {p : ℕ → Bool} (h : ∀ i < k, p i = false) :
    (List.range k).countP p = 0 := by
  rw [countP_eq_zero]
  intro i hi
  rw [h i (mem_range.mp hi)]
  exact Bool.false_ne_true

theorem countOnes_below (w off : U64) : countOnes (w &&& (bitOf off - 1)) =
      (List.range (off.toNat % 64)).countP fun i => w.getLsbD i := by
  have hmod : off.toNat % 64 < 64 := Nat.mod_lt _ (by decide)
  have hmask : ∀ j < 64, (bitOf off - 1).getLsbD j = decide (j < off.toNat % 64) := by
    intro j hj
    have hpow : bitOf off - 1 = BitVec.ofNat 64 (2 ^ (off.toNat % 64) - 1) := by
      apply eq_of_toNat_eq
      unfold bitOf
      have hpos : 0 < 2 ^ (off.toNat % 64) := Nat.two_pow_pos _
      have hle : 2 ^ (off.toNat % 64) < 2 ^ 64 := Nat.pow_lt_pow_right (by decide) hmod
      have hone : (1 : U64).toNat = 1 := rfl
      rw [toNat_sub, toNat_shiftLeft, toNat_ofNat, hone, Nat.shiftLeft_eq,
        one_mul, Nat.mod_eq_of_lt hle]
      omega
    rw [hpow, getLsbD_ofNat, Nat.testBit_two_pow_sub_one]
    simp [hj]
  have hsplit : ∀ p : ℕ → Bool, (range 64).countP p = (range (off.toNat % 64)).countP p +
        (range (64 - off.toNat % 64)).countP fun i => p (off.toNat % 64 + i) := by
    intro p
    rw [← countP_range_add, Nat.add_sub_cancel' hmod.le]
  unfold countOnes
  rw [hsplit]
  have hhigh : (range (64 - off.toNat % 64)).countP
      (fun i => (w &&& (bitOf off - 1)).getLsbD (off.toNat % 64 + i)) = 0 := by
    refine countP_range_zero _ fun i hi => ?_
    rw [getLsbD_and, hmask _ (by omega)]
    simp
  rw [hhigh, add_zero]
  refine countP_congr fun i hi => ?_
  have hlt := mem_range.mp hi
  rw [getLsbD_and, hmask i (by omega)]
  simp [hlt]

theorem countP_word (ws : List U64) (w k : ℕ) (hk : k ≤ 64) :
    (List.range k).countP (fun i => bitAt ws (64 * w + i)) =
      (List.range k).countP fun i => (ws.getD w 0).getLsbD i := by
  refine countP_congr fun i hi => ?_
  have hlt := mem_range.mp hi
  unfold bitAt
  rw [show (64 * w + i) / 64 = w by omega, show (64 * w + i) % 64 = i by omega]

theorem countP_cons (x : U64) (ws : List U64) (n : ℕ) :
    (List.range (64 * (n + 1))).countP (bitAt (x :: ws)) =
      countOnes x + (List.range (64 * n)).countP (bitAt ws) := by
  have hfirst : (range 64).countP (bitAt (x :: ws)) = countOnes x := by
    have h := countP_word (x :: ws) 0 64 (le_refl _)
    simpa [countOnes] using h
  have hshift : (range (64 * n)).countP (fun i => bitAt (x :: ws) (64 + i)) =
      (range (64 * n)).countP (bitAt ws) := by
    refine countP_congr fun i _ => ?_
    unfold bitAt
    rw [show (64 + i) / 64 = i / 64 + 1 by omega, show (64 + i) % 64 = i % 64 by omega,
      getD_cons_succ]
  rw [show 64 * (n + 1) = 64 + 64 * n by ring, countP_range_add, hfirst, hshift]

theorem getD_countBefore (n : ℕ) (ws : List U64) (w : ℕ) (hw : w < ws.length) :
    (countBefore n ws).getD w 0 = n + (List.range (64 * w)).countP (bitAt ws) := by
  induction ws generalizing n w with
  | nil => exact absurd hw (Nat.not_lt_zero _)
  | cons x ws ih =>
    cases w with
    | zero => rfl
    | succ w =>
      have hrest := ih (n + countOnes x) w (by simpa using hw)
      rw [countBefore, getD_cons_succ, hrest, countP_cons, add_assoc]

theorem countAll_eq (ws : List U64) :
    countAll ws = (List.range (64 * ws.length)).countP (bitAt ws) := by
  have hfold : ∀ (ws : List U64) (n : ℕ), ws.foldl (fun n w => n + countOnes w) n =
      n + (ws.map countOnes).sum := by
    intro ws
    induction ws with
    | nil => exact fun n => rfl
    | cons x ws ih =>
      intro n
      rw [foldl_cons, ih, map_cons, sum_cons, add_assoc]
  unfold countAll
  rw [hfold, zero_add]
  induction ws with
  | nil => rfl
  | cons x ws ih => rw [map_cons, sum_cons, ih, length_cons, countP_cons]

theorem rank_eq (there : List U64) (off : U64) (h : wordOf off < there.length) :
    rank there (countBefore 0 there) off = (List.range off.toNat).countP (bitAt there) := by
  unfold rank
  have hmod : off.toNat % 64 < 64 := Nat.mod_lt _ (by decide)
  rw [getD_countBefore 0 there _ h, countOnes_below, zero_add,
    ← countP_word there _ _ hmod.le, ← countP_range_add]
  unfold wordOf
  rw [Nat.div_add_mod]

end Ranks

section Counting

theorem countP_range_mem {A : List ℕ} (hA : A.Pairwise (· < ·)) {p : ℕ → Bool}
    (hp : ∀ i, p i = true ↔ i ∈ A) (n : ℕ) :
    (List.range n).countP p = (A.filter fun i => i < n).length := by
  rw [countP_eq_length_filter]
  have hperm : ((range n).filter p).Perm (A.filter fun i => i < n) := by
    have hnodup : A.Nodup := hA.imp ne_of_lt
    refine (perm_ext_iff_of_nodup (nodup_range.filter _) (hnodup.filter _)).mpr
      fun i => ?_
    rw [mem_filter, mem_filter, mem_range, hp, decide_eq_true_eq, and_comm]
  exact hperm.length_eq

theorem length_filter_lt {A : List ℕ} (hA : A.Pairwise (· < ·)) {j n : ℕ} (hj : A[j]? = some n) :
    (A.filter fun i => i < n).length = j := by
  induction A generalizing j with
  | nil => cases hj
  | cons x A ih =>
    obtain ⟨hx, hA⟩ := pairwise_cons.mp hA
    cases j with
    | zero =>
      obtain rfl := some.inj hj
      rw [length_eq_zero_iff, filter_eq_nil_iff]
      intro i hi
      rw [decide_eq_true_eq, not_lt]
      rcases mem_cons.mp hi with rfl | hi
      · exact le_refl _
      · exact (hx i hi).le
    | succ j =>
      rw [getElem?_cons_succ] at hj
      have hlt := hx n (mem_of_getElem? hj)
      rw [filter_cons, if_pos (decide_eq_true hlt), length_cons, ih hA hj]

end Counting

/-- Every address lies between the two. -/
def Within (lo hi : U64) (items : Run α) : Prop := ∀ e ∈ items, lo ≤ e.1 ∧ e.1 ≤ hi

def bitsOf (lo hi : U64) (items : Run α) : List U64 :=
  items.foldl (mark lo) (List.replicate ((hi - lo).toNat / 64 + 1) 0)

variable {share : Share α}

section Dense

variable {lo hi : U64} {items : Run α} {e : U64 × α} {done : Run α}

theorem off_lt (h : Within lo hi items) (he : e ∈ items) : (e.1 - lo).toNat ≤ (hi - lo).toNat := by
  obtain ⟨hlo, hhi⟩ := h e he
  rw [toNat_sub_of_le hlo, toNat_sub_of_le (hlo.trans hhi)]
  exact Nat.sub_le_sub_right hhi _

theorem off_inj (h : Within lo hi items) {x : U64 × α} (he : e ∈ items) (hx : x ∈ items) :
    (e.1 - lo).toNat = (x.1 - lo).toNat ↔ e.1 = x.1 := by
  have h₁ : lo.toNat ≤ e.1.toNat := (h e he).1
  have h₂ : lo.toNat ≤ x.1.toNat := (h x hx).1
  rw [toNat_sub_of_le (h e he).1, toNat_sub_of_le (h x hx).1, ← toNat_inj]
  omega

theorem length_bitsOf : (bitsOf lo hi items).length = (hi - lo).toNat / 64 + 1 := by
  unfold bitsOf
  rw [length_foldl_mark, length_replicate]

theorem wordOf_lt (h : Within lo hi items) (he : e ∈ items) :
    wordOf (e.1 - lo) < (bitsOf lo hi items).length := by
  have hoff := off_lt h he
  rw [length_bitsOf]
  unfold wordOf
  omega

theorem bitAt_bitsOf (h : Within lo hi items) (i : ℕ) :
    bitAt (bitsOf lo hi items) i = items.any fun e => (e.1 - lo).toNat = i := by
  unfold bitsOf
  rw [bitAt_foldl_mark, bitAt_replicate, Bool.false_or]
  intro e he
  have hlt := wordOf_lt h he
  rw [length_bitsOf] at hlt
  rw [length_replicate]
  exact hlt

/-- The addresses kept, counted from the lowest. -/
def offsets (lo : U64) (items : Run α) : List ℕ := (firsts items).map fun e => (e.1 - lo).toNat

theorem mem_firsts_of_mem (he : e ∈ items) : ∃ x ∈ firsts items, x.1 = e.1 := by
  have hsome : lookup e.1 (firsts items) ≠ none := by
    rw [lookup_firsts, Ne, lookup_eq_none_iff]
    exact fun hnot => hnot (mem_map_of_mem he)
  obtain ⟨v, hv⟩ := ne_none_iff_exists'.mp hsome
  exact ⟨_, mem_of_lookup hv, rfl⟩

section

variable (h : Within lo hi items)

include h

theorem offsets_increasing : (offsets lo items).Pairwise (· < ·) := by
  unfold offsets
  rw [pairwise_map]
  refine (pairwise_map.mp (increasing_firsts items)).imp_of_mem fun {a b} ha hb hab => ?_
  have h₁ : lo ≤ a.1 := (h a (mem_of_mem_firsts ha)).1
  have h₂ : lo ≤ b.1 := (h b (mem_of_mem_firsts hb)).1
  have h₃ : lo.toNat ≤ a.1.toNat := h₁
  have h₄ : a.1.toNat < b.1.toNat := hab
  rw [toNat_sub_of_le h₁, toNat_sub_of_le h₂]
  omega

theorem mem_offsets (i : ℕ) : bitAt (bitsOf lo hi items) i = true ↔ i ∈ offsets lo items := by
  rw [bitAt_bitsOf h, List.any_eq_true]
  unfold offsets
  rw [List.mem_map]
  constructor
  · rintro ⟨e, he, hi⟩
    obtain ⟨x, hx, hxe⟩ := mem_firsts_of_mem he
    refine ⟨x, hx, ?_⟩
    rw [hxe]
    exact of_decide_eq_true hi
  · rintro ⟨x, hx, hi⟩
    exact ⟨x, mem_of_mem_firsts hx, decide_eq_true hi⟩

/-- An instruction's rank is its place among the addresses kept. -/
theorem rank_firsts {j : ℕ} {x : U64 × α} (hx : (firsts items)[j]? = some x) :
    rank (bitsOf lo hi items) (countBefore 0 (bitsOf lo hi items)) (x.1 - lo) = j := by
  rw [rank_eq _ _ (wordOf_lt h (mem_of_mem_firsts (mem_of_getElem? hx))),
    countP_range_mem (offsets_increasing h) (mem_offsets h)]
  refine length_filter_lt (offsets_increasing h) ?_
  unfold offsets
  rw [getElem?_map, hx]
  rfl

theorem countAll_bitsOf : countAll (bitsOf lo hi items) = (firsts items).length := by
  rw [countAll_eq, countP_range_mem (offsets_increasing h) (mem_offsets h)]
  have hall : (offsets lo items).filter (fun i => i < 64 * (bitsOf lo hi items).length) =
      offsets lo items := by
    rw [filter_eq_self]
    intro i hi
    obtain ⟨x, hx, rfl⟩ := List.mem_map.mp hi
    have hlt := wordOf_lt h (mem_of_mem_firsts hx)
    unfold wordOf at hlt
    rw [decide_eq_true_eq]
    omega
  rw [hall]
  exact length_map _

end

/-- What a slot holds when some of the instructions are placed. -/
def slotAfter (all done : Run α) (share : Share α) (j : ℕ) : Option (Option (Slot α)) :=
  ((all[j]?).bind fun e => (lookup e.1 done).map fun v => some (some (e.1, v))).or share[j]?

/-- The instructions of `done` placed: each address once, its bit cleared. -/
structure Placed (lo hi : U64) (items done : Run α) (share : Share α) (s : Placing α) : Prop where
  length : s.unplaced.length = (bitsOf lo hi items).length
  bits : ∀ i, bitAt s.unplaced i =
    (bitAt (bitsOf lo hi items) i && !done.any fun e => (e.1 - lo).toNat = i)
  slots : ∀ j, s.share[j]? = slotAfter (firsts items) done share j

theorem placed_start (share : Share α) :
    Placed lo hi items [] share ⟨bitsOf lo hi items, share⟩ := by
  refine ⟨rfl, fun i => by simp, fun j => ?_⟩
  unfold slotAfter
  cases (firsts items)[j]? <;> rfl

variable (h : Within lo hi items)

include h

theorem lookup_done_eq_none (hdone : ∀ x ∈ done, x ∈ items) (he : e ∈ items) :
    lookup e.1 done = none ↔ (done.any fun x => (x.1 - lo).toNat = (e.1 - lo).toNat) = false := by
  rw [List.any_eq_false, lookup_eq_none_iff]
  constructor
  · intro hnot x hx hoff
    have heq := (off_inj h (hdone x hx) he).mp (of_decide_eq_true hoff)
    exact hnot (List.mem_map.mpr ⟨x, hx, heq⟩)
  · intro hnone hmem
    obtain ⟨x, hx, heq⟩ := List.mem_map.mp hmem
    exact hnone x hx (decide_eq_true ((off_inj h (hdone x hx) he).mpr heq))

theorem Placed.step {s : Placing α} (hp : Placed lo hi items done share s)
    (hdone : ∀ x ∈ done, x ∈ items)
    (he : e ∈ items) (hroom : (firsts items).length ≤ share.length) :
    Placed lo hi items (done ++ [e]) share
      (place lo (bitsOf lo hi items) (countBefore 0 (bitsOf lo hi items)) s e) := by
  have hword : wordOf (e.1 - lo) < s.unplaced.length := by
    rw [hp.length]
    exact wordOf_lt h he
  have hthere : bitAt (bitsOf lo hi items) (e.1 - lo).toNat = true := by
    rw [bitAt_bitsOf h, List.any_eq_true]
    exact ⟨e, he, decide_eq_true rfl⟩
  have hbit : s.unplaced.getD (wordOf (e.1 - lo)) 0 &&& bitOf (e.1 - lo) ≠ 0 ↔
      lookup e.1 done = none := by
    rw [and_bitOf_ne_zero, lookup_done_eq_none h hdone he]
    have hb := hp.bits (e.1 - lo).toNat
    unfold bitAt at hb
    unfold wordOf
    rw [hb]
    unfold bitAt at hthere
    rw [hthere, Bool.true_and, Bool.not_eq_true']
  unfold place
  simp only
  by_cases hnone : lookup e.1 done = none
  · rw [if_pos (hbit.mpr hnone)]
    refine ⟨(length_modify _ _ _).trans hp.length, fun i => ?_, fun j => ?_⟩
    · rw [bitAt_modify, any_append, any_cons, any_nil, Bool.or_false]
      by_cases hi : i / 64 = wordOf (e.1 - lo)
      · have hmod : i % 64 < 64 := Nat.mod_lt _ (by decide)
        have hiff : i % 64 = (e.1 - lo).toNat % 64 ↔ (e.1 - lo).toNat = i := by
          unfold wordOf at hi
          omega
        have hb := hp.bits i
        unfold bitAt at hb
        rw [hi] at hb
        rw [if_pos ⟨hi, hword⟩, getLsbD_and, getLsbD_not, getLsbD_bitOf _ hmod, hb]
        simp only [hiff, hmod, decide_true, Bool.true_and]
        unfold bitAt
        rw [hi, Bool.not_or, Bool.and_assoc]
      · have hne : (e.1 - lo).toNat ≠ i := fun heq => hi (by rw [← heq]; rfl)
        rw [if_neg fun hc => hi hc.1, decide_eq_false hne, Bool.or_false]
        exact hp.bits i
    · obtain ⟨x, hx, hxe⟩ := mem_firsts_of_mem he
      obtain ⟨k, hk⟩ := mem_iff_getElem?.mp hx
      have hrank := rank_firsts h hk
      rw [hxe] at hrank
      rw [hrank, getElem?_set]
      have hlen : k < s.share.length := by
        have hklt := (List.getElem?_eq_some_iff.mp hk).1
        by_contra hge
        have hnonek := hp.slots k
        rw [List.getElem?_eq_none (by omega)] at hnonek
        unfold slotAfter at hnonek
        have hsh := (or_eq_none_iff.mp hnonek.symm).2
        rw [List.getElem?_eq_none_iff] at hsh
        omega
      by_cases hjk : k = j
      · subst hjk
        rw [if_pos rfl, if_pos hlen]
        unfold slotAfter
        rw [hk, bind_some, lookup_append, hxe, hnone, none_or, lookup, if_pos rfl]
        rfl
      · rw [if_neg hjk, hp.slots j]
        unfold slotAfter
        cases hj : (firsts items)[j]? with
        | none => rfl
        | some y =>
          have hne : y.1 ≠ e.1 := by
            intro heq
            apply hjk
            have hrank' := rank_firsts h hj
            rw [heq] at hrank'
            exact hrank.symm.trans hrank'
          rw [bind_some, bind_some, lookup_append, lookup, if_neg hne, lookup, or_none]
  · rw [if_neg fun hc => hnone (hbit.mp hc)]
    have hany : (done.any fun x => (x.1 - lo).toNat = (e.1 - lo).toNat) = true := by
      rw [← Bool.not_eq_false]
      exact fun hf => hnone ((lookup_done_eq_none h hdone he).mpr hf)
    refine ⟨hp.length, fun i => ?_, fun j => ?_⟩
    · rw [hp.bits i, any_append, any_cons, any_nil, Bool.or_false]
      by_cases hi : (e.1 - lo).toNat = i
      · subst hi
        rw [hany, Bool.true_or]
      · rw [decide_eq_false hi, Bool.or_false]
    · rw [hp.slots j]
      unfold slotAfter
      congr 2
      funext y
      rw [lookup_append, lookup, lookup]
      by_cases hy : y.1 = e.1
      · rw [hy, or_of_isSome (isSome_iff_ne_none.mpr hnone)]
      · rw [if_neg hy, or_none]

theorem placed_foldl (hroom : (firsts items).length ≤ share.length) (rest : Run α) {s : Placing α}
    (hp : Placed lo hi items done share s) (hall : done ++ rest = items) :
    Placed lo hi items items share
      (rest.foldl (place lo (bitsOf lo hi items) (countBefore 0 (bitsOf lo hi items))) s) := by
  induction rest generalizing done s with
  | nil =>
    rw [append_nil] at hall
    rw [← hall]
    rw [← hall] at hp
    exact hp
  | cons e rest ih =>
    have hmem : e ∈ items := by
      rw [← hall]
      exact mem_append_right _ mem_cons_self
    have hdone : ∀ x ∈ done, x ∈ items := by
      rw [← hall]
      exact fun x hx => mem_append_left _ hx
    refine ih (hp.step h hdone hmem hroom) ?_
    rw [List.append_assoc, singleton_append]
    exact hall

theorem putDense_eq_putSparse (hroom : (firsts items).length ≤ share.length) :
    putDense lo hi items share = putSparse items share := by
  have hp := placed_foldl h hroom items (placed_start share) (nil_append items)
  change (countAll (bitsOf lo hi items), (items.foldl (place lo (bitsOf lo hi items)
    (countBefore 0 (bitsOf lo hi items))) ⟨bitsOf lo hi items, share⟩).share) = _
  unfold putSparse
  rw [countAll_bitsOf h]
  refine Prod.ext rfl (ext_getElem? fun j => ?_)
  rw [hp.slots j]
  unfold slotAfter
  by_cases hj : j < (firsts items).length
  · have hget := List.getElem?_eq_getElem hj
    have hlook : lookup (firsts items)[j].1 items = some (firsts items)[j].2 := by
      rw [← lookup_firsts]
      exact (lookup_eq_some_iff ((increasing_firsts items).imp ne_of_lt)).mpr (getElem_mem hj)
    rw [hget, bind_some, hlook, List.getElem?_append_left (by simpa using hj),
      List.getElem?_map, hget]
    rfl
  · rw [List.getElem?_eq_none (by omega), List.getElem?_append_right (by simpa using hj),
      length_map, List.getElem?_drop, Nat.add_sub_cancel' (by omega)]
    rfl

end Dense

section Order

variable {old : Run α} {runs : List (Run α)} {items : Run α}

theorem bounds_spec (items : Run α) : Within (bounds items).1 (bounds items).2 items := by
  have hfold : ∀ (items : Run α) (b : U64 × U64),
      (items.foldl (fun b e => (min b.1 e.1, max b.2 e.1)) b).1 ≤ b.1 ∧
        b.2 ≤ (items.foldl (fun b e => (min b.1 e.1, max b.2 e.1)) b).2 ∧
        ∀ e ∈ items, (items.foldl (fun b e => (min b.1 e.1, max b.2 e.1)) b).1 ≤ e.1 ∧
          e.1 ≤ (items.foldl (fun b e => (min b.1 e.1, max b.2 e.1)) b).2 := by
    intro items
    induction items with
    | nil => exact fun b => ⟨le_refl _, le_refl _, fun e he => absurd he not_mem_nil⟩
    | cons e items ih =>
      intro b
      obtain ⟨hlo, hhi, hall⟩ := ih (min b.1 e.1, max b.2 e.1)
      refine ⟨hlo.trans (min_le_left _ _), (le_max_left _ _).trans hhi, fun x hx => ?_⟩
      rcases mem_cons.mp hx with rfl | hx
      · exact ⟨hlo.trans (min_le_right _ _), (le_max_right _ _).trans hhi⟩
      · exact hall x hx
  exact fun e he => (hfold items _).2.2 e he

theorem putInOrder_eq (old : Run α) (runs : List (Run α))
    (hroom : old.length + (runs.map List.length).sum ≤ share.length) :
    putInOrder old runs share = (firsts (old ++ runs.flatten)).map (fun e => some (some e)) ++
        List.replicate (share.length - (firsts (old ++ runs.flatten)).length) (some none) := by
  have hlen : (firsts (old ++ runs.flatten)).length ≤ share.length := by
    have hle := length_firsts_le (old ++ runs.flatten)
    rw [length_append, length_flatten] at hle
    omega
  have hclear : clearRest (putSparse (old ++ runs.flatten) share) =
      (firsts (old ++ runs.flatten)).map (fun e => some (some e)) ++
        replicate (share.length - (firsts (old ++ runs.flatten)).length) (some none) := by
    unfold clearRest putSparse
    simp only
    rw [take_left' (length_map _), drop_left' (length_map _),
      map_const', length_drop]
  unfold putInOrder
  simp only
  split
  · next hempty =>
    -- no instruction at all
    have hnil : old ++ runs.flatten = [] := by
      rw [eq_nil_iff_forall_not_mem]
      intro e he
      obtain ⟨hlo, hhi⟩ := bounds_spec _ e he
      exact absurd (hlo.trans hhi) (not_le.mpr hempty)
    rw [← hclear, hnil]
    unfold clearRest putSparse firsts
    simp
  · split
    · rw [putDense_eq_putSparse (bounds_spec _) hlen, hclear]
    · exact hclear

end Order

end SlotPlacement
