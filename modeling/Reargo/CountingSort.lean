import Mathlib.Data.List.GetD
import Mathlib.Tactic

/-!
# Stable counting sort

One pass of a radix sort: count the elements of each digit, give each digit its first
slot, and put each element in the next slot of its digit. The result is the elements of
each digit in turn, in their old order.
-/
namespace CountingSort

open List Function

variable {α : Type*}

/-- How many elements have each digit below `n`. -/
def tally (digit : α → ℕ) (n : ℕ) (xs : List α) : List ℕ :=
  xs.foldl (fun counts x => counts.modify (digit x) (· + 1)) (List.replicate n 0)

def firstSlots (counts : List ℕ) : List ℕ :=
  (counts.foldl (fun st c => (st.1 ++ [st.2], st.2 + c)) ([], 0)).1

/-- Put an element in the next slot of its digit. -/
def place (digit : α → ℕ) (st : List α × List ℕ) (x : α) : List α × List ℕ :=
  (st.1.set (st.2.getD (digit x) 0) x, st.2.modify (digit x) (· + 1))

def pass (digit : α → ℕ) (n : ℕ) (buf xs : List α) : List α :=
  (xs.foldl (place digit) (buf, firstSlots (tally digit n xs))).1

def bucket (digit : α → ℕ) (xs : List α) (d : ℕ) : List α :=
  xs.filter fun x => digit x = d

/-- The elements of each digit below `n` in turn. -/
def buckets (digit : α → ℕ) (n : ℕ) (xs : List α) : List α :=
  (List.range n).flatMap (bucket digit xs)

section Buckets

variable {digit : α → ℕ}

theorem buckets_succ (n : ℕ) (xs : List α) :
    buckets digit (n + 1) xs = buckets digit n xs ++ bucket digit xs n := by
  simp [buckets, range_succ]

theorem mem_bucket {xs : List α} {d : ℕ} {x : α} :
    x ∈ bucket digit xs d ↔ x ∈ xs ∧ digit x = d := by
  simp [bucket]

theorem mem_buckets {xs : List α} {n : ℕ} {x : α} :
    x ∈ buckets digit n xs ↔ x ∈ xs ∧ digit x < n := by
  simp only [buckets, mem_flatMap, mem_range, mem_bucket]
  constructor
  · intro ⟨d, hd, hx, heq⟩
    exact ⟨hx, heq ▸ hd⟩
  · intro ⟨hx, hlt⟩
    exact ⟨digit x, hlt, hx, rfl⟩

variable (digit) in
theorem buckets_perm_filter (n : ℕ) (xs : List α) :
    (buckets digit n xs).Perm (xs.filter fun x => digit x < n) := by
  induction n with
  | zero => simp [buckets]
  | succ n ih =>
    rw [buckets_succ]
    have hsplit := filter_append_perm (fun x => decide (digit x < n))
      (xs.filter fun x => decide (digit x < n + 1))
    rw [filter_filter, filter_filter] at hsplit
    refine List.Perm.trans ?_ hsplit
    have hlow : (xs.filter fun x => decide (digit x < n) && decide (digit x < n + 1)) =
        xs.filter fun x => digit x < n := by
      refine filter_congr fun x _ => ?_
      rw [← Bool.decide_and, decide_eq_decide]
      omega
    have hhigh : (xs.filter fun x => !decide (digit x < n) && decide (digit x < n + 1)) =
        bucket digit xs n := by
      refine filter_congr fun x _ => ?_
      rw [← decide_not, ← Bool.decide_and, decide_eq_decide]
      omega
    rw [hlow, hhigh]
    exact ih.append_right _

theorem buckets_perm {n : ℕ} {xs : List α} (h : ∀ x ∈ xs, digit x < n) :
    (buckets digit n xs).Perm xs := by
  have hperm := buckets_perm_filter digit n xs
  rwa [filter_eq_self.mpr fun x hx => decide_eq_true (h x hx)] at hperm

theorem buckets_pairwise {R : α → α → Prop} (n : ℕ) {xs : List α} (h : xs.Pairwise R) :
    (buckets digit n xs).Pairwise fun a b => digit a < digit b ∨ digit a = digit b ∧ R a b := by
  induction n with
  | zero => simp [buckets]
  | succ n ih =>
    rw [buckets_succ, pairwise_append]
    refine ⟨ih, ?_, fun a ha b hb => ?_⟩
    · refine (h.filter _).imp_of_mem fun ha hb hab => .inr ⟨?_, hab⟩
      rw [(mem_bucket.mp ha).2, (mem_bucket.mp hb).2]
    · have hlt := (mem_buckets.mp ha).2
      rw [(mem_bucket.mp hb).2]
      exact .inl hlt

end Buckets

section Pass

variable {digit : α → ℕ}

theorem getD_modify {counts : List ℕ} {i d : ℕ} (hd : d < counts.length) :
    (counts.modify i (· + 1)).getD d 0 = counts.getD d 0 + if i = d then 1 else 0 := by
  rw [getD_eq_getElem?_getD, getD_eq_getElem?_getD, getElem?_modify,
    getElem?_eq_getElem hd]
  by_cases h : i = d <;> simp [h]

variable (digit) in
theorem tally_spec (n : ℕ) (xs : List α) : (tally digit n xs).length = n ∧
      ∀ d, d < n → (tally digit n xs).getD d 0 = (bucket digit xs d).length := by
  have hfold : ∀ (counts : List ℕ),
      (xs.foldl (fun counts x => counts.modify (digit x) (· + 1)) counts).length = counts.length ∧
      ∀ d, d < counts.length →
        (xs.foldl (fun counts x => counts.modify (digit x) (· + 1)) counts).getD d 0 =
          counts.getD d 0 + (bucket digit xs d).length := by
    induction xs with
    | nil => exact fun counts => ⟨rfl, fun d _ => rfl⟩
    | cons x xs ih =>
      intro counts
      obtain ⟨hlen, hget⟩ := ih (counts.modify (digit x) (· + 1))
      rw [length_modify] at hlen hget
      refine ⟨hlen, fun d hd => ?_⟩
      rw [foldl_cons, hget d hd, getD_modify hd]
      by_cases hx : digit x = d
      · simp [bucket, hx]
        omega
      · simp [bucket, hx]
  obtain ⟨hlen, hget⟩ := hfold (replicate n 0)
  rw [length_replicate] at hlen hget
  refine ⟨hlen, fun d hd => (hget d hd).trans ?_⟩
  rw [getD_eq_getElem?_getD, getElem?_replicate, if_pos hd]
  exact zero_add _

/-- How many come before the digit. -/
def offsets (counts : ℕ → ℕ) (d : ℕ) : ℕ :=
  ((List.range d).map counts).sum

theorem length_flatMap_range (n : ℕ) (rows : ℕ → List α) :
    ((List.range n).flatMap rows).length = offsets (fun d => (rows d).length) n := by
  rw [length_flatMap]
  rfl

theorem offsets_succ (counts : ℕ → ℕ) (n : ℕ) :
    offsets counts (n + 1) = offsets counts n + counts n := by
  simp [offsets, range_succ]

theorem offsets_mono (counts : ℕ → ℕ) {d n : ℕ} (h : d < n) :
    offsets counts (d + 1) ≤ offsets counts n := by
  induction n with
  | zero => exact absurd h (Nat.not_lt_zero d)
  | succ n ih =>
    by_cases hd : d = n
    · rw [hd]
    · rw [offsets_succ counts n]
      exact (ih (by omega)).trans (Nat.le_add_right _ _)

theorem offsets_congr {counts counts' : ℕ → ℕ} {n : ℕ} (h : ∀ d, d < n → counts d = counts' d) :
    offsets counts n = offsets counts' n := by
  unfold offsets
  congr 1
  exact map_congr_left fun d hd => h d (mem_range.mp hd)

theorem firstSlots_spec (counts : List ℕ) : (firstSlots counts).length = counts.length ∧
      ∀ d, d < counts.length →
        (firstSlots counts).getD d 0 = offsets (fun e => counts.getD e 0) d := by
  have hfold : (counts.foldl (fun st c => (st.1 ++ [st.2], st.2 + c)) (([] : List ℕ), 0)) =
      ((range counts.length).map (offsets fun e => counts.getD e 0),
        offsets (fun e => counts.getD e 0) counts.length) := by
    induction counts using List.reverseRecOn with
    | nil => rfl
    | append_singleton counts c ih =>
      have hget : ∀ e, e < counts.length → (counts ++ [c]).getD e 0 = counts.getD e 0 :=
        fun e he => getD_append _ _ _ _ he
      have hlast : (counts ++ [c]).getD counts.length 0 = c := by simp
      rw [foldl_append, ih, length_append, length_singleton, offsets_succ, hlast,
        range_succ, map_append, foldl_cons, foldl_nil,
        offsets_congr hget]
      refine Prod.ext ?_ rfl
      have hmap : (range counts.length).map (offsets fun e => (counts ++ [c]).getD e 0) =
          (range counts.length).map (offsets fun e => counts.getD e 0) := by
        refine map_congr_left fun d hd => offsets_congr fun e he => hget e ?_
        exact lt_trans he (mem_range.mp hd)
      rw [hmap, map_singleton, offsets_congr hget]
  unfold firstSlots
  rw [hfold]
  refine ⟨by simp, fun d hd => ?_⟩
  simp [getD_eq_getElem?_getD, hd]

theorem exists_rows (counts : ℕ → ℕ) (n : ℕ) {buf : List α} (h : buf.length = offsets counts n) :
    ∃ rows : ℕ → List α, buf = (List.range n).flatMap rows ∧
      ∀ d, d < n → (rows d).length = counts d := by
  induction n generalizing buf with
  | zero =>
    refine ⟨fun _ => [], ?_, fun d hd => absurd hd (Nat.not_lt_zero d)⟩
    exact length_eq_zero_iff.mp h
  | succ n ih =>
    rw [offsets_succ] at h
    have hlen : (buf.take (offsets counts n)).length = offsets counts n := by
      rw [length_take]
      omega
    obtain ⟨rows, hrows, hlens⟩ := ih hlen
    refine ⟨update rows n (buf.drop (offsets counts n)), ?_, fun d hd => ?_⟩
    · rw [range_succ, flatMap_append, flatMap_singleton, update_self]
      have hsame : (range n).flatMap (update rows n (buf.drop (offsets counts n))) =
          (range n).flatMap rows := by
        refine flatMap_congr fun d hd => ?_
        have hne : d ≠ n := ne_of_lt (mem_range.mp hd)
        rw [update_of_ne hne]
      rw [hsame, ← hrows, take_append_drop]
    · by_cases hdn : d = n
      · subst hdn
        rw [update_self, length_drop]
        omega
      · rw [update_of_ne hdn]
        exact hlens d (by omega)

theorem set_flatMap_range (n : ℕ) (rows : ℕ → List α) {d : ℕ} (hd : d < n) {i : ℕ} (x : α)
    (hi : i < (rows d).length) :
    ((List.range n).flatMap rows).set (offsets (fun e => (rows e).length) d + i) x =
      (List.range n).flatMap (Function.update rows d ((rows d).set i x)) := by
  induction n with
  | zero => exact absurd hd (Nat.not_lt_zero d)
  | succ n ih =>
    rw [range_succ, flatMap_append, flatMap_append, flatMap_singleton, flatMap_singleton]
    by_cases hdn : d = n
    · subst hdn
      have hsame : (List.range d).flatMap (Function.update rows d ((rows d).set i x)) =
          (range d).flatMap rows := by
        refine flatMap_congr fun e he => ?_
        have hne : e ≠ d := ne_of_lt (mem_range.mp he)
        rw [update_of_ne hne]
      rw [set_append_right _ _ (by rw [length_flatMap_range]; omega), length_flatMap_range,
        Nat.add_sub_cancel_left, hsame, update_self]
    · have hlt : d < n := by omega
      have hroom : offsets (fun e => (rows e).length) d + i <
          ((range n).flatMap rows).length := by
        rw [length_flatMap_range]
        have hmono := offsets_mono (fun e => (rows e).length) hlt
        rw [offsets_succ] at hmono
        omega
      rw [set_append_left _ _ hroom, ih hlt, update_of_ne (fun h => hdn h.symm)]

/-- Part of the elements placed: each row holds its elements so far, then what was there. -/
structure Placed (digit : α → ℕ) (n : ℕ) (before after : List α) (st : List α × List ℕ) : Prop where
  rows : ∃ left : ℕ → List α,
    st.1 = (List.range n).flatMap (fun d => bucket digit before d ++ left d) ∧
      ∀ d, d < n → (left d).length = (bucket digit after d).length
  length : st.2.length = n
  next : ∀ d, d < n → st.2.getD d 0 =
    offsets (fun e => (bucket digit before e).length + (bucket digit after e).length) d +
      (bucket digit before d).length

theorem placed_step {n : ℕ} {before after : List α} {x : α} {st : List α × List ℕ}
    (hx : digit x < n) (h : Placed digit n before (x :: after) st) :
    Placed digit n (before ++ [x]) after (place digit st x) := by
  obtain ⟨left, hbuf, hleft⟩ := h.rows
  have hfull : ∀ d, d < n → (bucket digit before d ++ left d).length =
      (bucket digit before d).length + (bucket digit (x :: after) d).length := by
    intro d hd
    rw [length_append, hleft d hd]
  have hsnoc : ∀ d, bucket digit (before ++ [x]) d =
      bucket digit before d ++ if digit x = d then [x] else [] := by
    intro d
    by_cases hd : digit x = d <;> simp [bucket, filter_append, hd]
  have hcons : ∀ d, bucket digit (x :: after) d =
      (if digit x = d then [x] else []) ++ bucket digit after d := by
    intro d
    by_cases hd : digit x = d <;> simp [bucket, hd]
  have hsizes : ∀ d, (bucket digit (before ++ [x]) d).length + (bucket digit after d).length =
      (bucket digit before d).length + (bucket digit (x :: after) d).length := by
    intro d
    rw [hsnoc, hcons, length_append, length_append]
    omega
  constructor
  · -- the slot set is the first of the row not yet placed
    have hnonempty : 0 < (left (digit x)).length := by
      rw [hleft _ hx, hcons, if_pos rfl]
      simp
    have hslot : (bucket digit before (digit x)).length <
        (bucket digit before (digit x) ++ left (digit x)).length := by
      rw [length_append]
      omega
    have hset := set_flatMap_range n (fun d => bucket digit before d ++ left d) hx x hslot
    refine ⟨fun d => if digit x = d then (left d).drop 1 else left d, ?_, fun d hd => ?_⟩
    · unfold place
      simp only
      rw [h.next _ hx, hbuf, ← offsets_congr (fun d hd => hfull d (lt_trans hd hx)), hset]
      refine flatMap_congr fun d _ => ?_
      by_cases hdx : digit x = d
      · subst hdx
        obtain ⟨y, rest, hrest⟩ := exists_cons_of_length_pos hnonempty
        rw [update_self, hsnoc, if_pos rfl, if_pos rfl, hrest,
          set_append_right _ _ (Nat.le_refl _), Nat.sub_self]
        simp
      · rw [update_of_ne (Ne.symm hdx), hsnoc, if_neg hdx, if_neg hdx, append_nil]
    · have hlen := hleft d hd
      rw [hcons] at hlen
      simp only
      by_cases hdx : digit x = d
      · rw [if_pos hdx] at hlen ⊢
        rw [length_drop, hlen, length_append, length_singleton]
        omega
      · rw [if_neg hdx] at hlen ⊢
        exact hlen
  · unfold place
    rw [length_modify]
    exact h.length
  · intro d hd
    unfold place
    simp only
    rw [offsets_congr fun e _ => hsizes e, getD_modify (h.length.symm ▸ hd), h.next d hd, hsnoc]
    by_cases hdx : digit x = d
    · rw [if_pos hdx, if_pos hdx, length_append, length_singleton]
      omega
    · rw [if_neg hdx, if_neg hdx, append_nil, add_zero]

theorem placed_all {n : ℕ} (after : List α) {before : List α} {st : List α × List ℕ}
    (hafter : ∀ x ∈ after, digit x < n) (h : Placed digit n before after st) :
    Placed digit n (before ++ after) [] (after.foldl (place digit) st) := by
  induction after generalizing before st with
  | nil =>
    rw [append_nil]
    exact h
  | cons x after ih =>
    have hnext := ih (fun y hy => hafter y (mem_cons_of_mem _ hy))
      (placed_step (hafter x mem_cons_self) h)
    rw [append_assoc] at hnext
    exact hnext

theorem pass_eq_buckets {n : ℕ} {buf xs : List α} (hxs : ∀ x ∈ xs, digit x < n)
    (hbuf : buf.length = xs.length) : pass digit n buf xs = buckets digit n xs := by
  have hlen : buf.length = offsets (fun d => (bucket digit xs d).length) n := by
    rw [← length_flatMap_range, hbuf]
    exact (buckets_perm hxs).length_eq.symm
  obtain ⟨rows, hrows, hlens⟩ := exists_rows _ n hlen
  obtain ⟨hcount, htally⟩ := tally_spec digit n xs
  obtain ⟨hslots, hfirst⟩ := firstSlots_spec (tally digit n xs)
  rw [hcount] at hslots hfirst
  have hstart : Placed digit n [] xs (buf, firstSlots (tally digit n xs)) := by
    refine ⟨⟨rows, ?_, hlens⟩, hslots, fun d hd => ?_⟩
    · simpa [bucket] using hrows
    · refine (hfirst d hd).trans (offsets_congr fun e he => ?_)
      rw [htally e (lt_trans he hd)]
      simp [bucket]
  obtain ⟨left, hend, hleft⟩ := (placed_all xs hxs hstart).rows
  unfold pass
  rw [hend]
  refine flatMap_congr fun d hd => ?_
  have hnil : left d = [] :=
    length_eq_zero_iff.mp ((hleft d (mem_range.mp hd)).trans rfl)
  rw [hnil, append_nil, nil_append]

end Pass

end CountingSort
