import Reargo.SortedKeys
import Reargo.OrderedMap

/-!
# Sets of half-open ranges

A sorted vector of ranges with a gap behind each. Ranges that overlap or touch are merged, when
the set is built and when one is added; membership and the meeting with a row of points are
answered by binary search. The addresses are any linear order.
-/
namespace CoveredRanges

open SortedKeys List

variable {α : Type} [LinearOrder α]

def Covers (ranges : List (α × α)) (a : α) : Prop := ∃ r ∈ ranges, r.1 ≤ a ∧ a < r.2

instance (ranges : List (α × α)) (a : α) : Decidable (Covers ranges a) :=
  inferInstanceAs (Decidable (∃ r ∈ ranges, _))

/-- None is empty, and each ends before the next begins. -/
structure Separated (ranges : List (α × α)) : Prop where
  nonempty : ∀ r ∈ ranges, r.1 < r.2
  gaps : ranges.Pairwise fun r r' => r.2 < r'.1

/-- The next range of a sorted row, merged into the last one when it does not start behind it. -/
def push (ranges : List (α × α)) (r : α × α) : List (α × α) :=
  match ranges.getLast? with
  | some last =>
    if r.1 ≤ last.2 then ranges.dropLast ++ [(last.1, max last.2 r.2)] else ranges ++ [r]
  | none => ranges ++ [r]

def sortRanges (raw : List (α × α)) : List (α × α) :=
  (raw.filter fun r => r.1 < r.2).mergeSort fun r r' => r.1 < r'.1 ∨ r.1 = r'.1 ∧ r.2 ≤ r'.2

def insertRange (ranges : List (α × α)) (start stop : α) : List (α × α) :=
  if stop ≤ start then ranges
  else
    let after := partitionPoint (fun r => r.1 ≤ start) ranges
    -- the last range that starts at or before `start` is merged when it reaches it
    let lo := if 0 < after ∧ (ranges[after - 1]?.any fun r => start ≤ r.2) then after - 1 else after
    let hi := partitionPoint (fun r => r.1 ≤ stop) ranges
    if hi ≤ lo then ranges.take lo ++ (start, stop) :: ranges.drop lo
    else
      match ranges[lo]?, ranges[hi - 1]? with
      | some first, some last =>
        ranges.take lo ++ (min start first.1, max stop last.2) :: ranges.drop hi
      | _, _ => ranges

def containsAddr (ranges : List (α × α)) (addr : α) : Bool :=
  let i := partitionPoint (fun r => r.1 ≤ addr) ranges
  0 < i ∧ (ranges[i - 1]?.any fun r => addr < r.2)

def scan (points : List α) (last : α) : List (α × α) → Bool
  | [] => false
  | r :: ranges =>
    if last < r.1 then false
    else if (points[partitionPoint (fun p => p < r.1) points]?).any (fun p => p < r.2) then true
    else scan points last ranges

def hitsPoints (ranges : List (α × α)) (points : List α) : Bool :=
  match points.head?, points.getLast? with
  | some first, some last =>
    if points.IsChain (· ≤ ·) then
      scan points last (ranges.drop (partitionPoint (fun r => r.2 ≤ first) ranges))
    else points.any (containsAddr ranges)
  | _, _ => false

section Splitting

variable {β : Type} {p : β → Bool} {l : List β}

theorem partitionPoint_append {before behind : List β} (h : ∀ x ∈ before, p x = true)
    (h' : ∀ x ∈ behind, p x = false) : partitionPoint p (before ++ behind) = before.length := by
  have none : behind.takeWhile p = [] := by
    cases behind with
    | nil => rfl
    | cons x behind => rw [takeWhile_cons, h' x mem_cons_self]; rfl
  rw [partitionPoint, takeWhile_append_of_pos h, none, append_nil]

theorem exists_cut (h : l.Pairwise fun x y => p y = true → p x = true) :
    ∃ before behind, l = before ++ behind ∧ (∀ x ∈ before, p x = true) ∧
      ∀ x ∈ behind, p x = false :=
  ⟨l.takeWhile p, l.dropWhile p, takeWhile_append_dropWhile.symm,
    fun _ hx => mem_takeWhile_imp hx, OrderedMap.dropWhile_false h⟩

end Splitting

variable {points : List α} {raw : List (α × α)}

section Ranges

variable {ranges before behind : List (α × α)} {r : α × α} {start stop a : α}
  {merged : List (α × α)}

theorem covers_append : Covers (before ++ behind) a ↔ Covers before a ∨ Covers behind a := by
  simp only [Covers, mem_append, or_and_right, exists_or]

theorem covers_cons : Covers (r :: ranges) a ↔ (r.1 ≤ a ∧ a < r.2) ∨ Covers ranges a := by
  simp only [Covers, mem_cons, or_and_right, exists_or, exists_eq_left]

theorem not_covers_nil : ¬ Covers ([] : List (α × α)) a := by
  rintro ⟨r, hr, -⟩
  cases hr

theorem separated_nil : Separated ([] : List (α × α)) := ⟨nofun, List.Pairwise.nil⟩

theorem separated_append : Separated (before ++ behind) ↔ Separated before ∧ Separated behind ∧
    ∀ r ∈ before, ∀ r' ∈ behind, r.2 < r'.1 := by
  constructor
  · intro h
    obtain ⟨hb, hb', gap⟩ := pairwise_append.mp h.gaps
    exact ⟨⟨fun r hr => h.nonempty r (mem_append_left _ hr), hb⟩,
      ⟨fun r hr => h.nonempty r (mem_append_right _ hr), hb'⟩, gap⟩
  · rintro ⟨hb, hb', gap⟩
    refine ⟨fun r hr => ?_, pairwise_append.mpr ⟨hb.gaps, hb'.gaps, gap⟩⟩
    rcases mem_append.mp hr with hr | hr
    · exact hb.nonempty r hr
    · exact hb'.nonempty r hr

theorem separated_cons : Separated (r :: ranges) ↔ r.1 < r.2 ∧ Separated ranges ∧
    ∀ r' ∈ ranges, r.2 < r'.1 := by
  constructor
  · intro h
    obtain ⟨gap, hg⟩ := pairwise_cons.mp h.gaps
    exact ⟨h.nonempty r mem_cons_self, ⟨fun x hx => h.nonempty x (mem_cons_of_mem _ hx), hg⟩, gap⟩
  · rintro ⟨hr, h, gap⟩
    refine ⟨fun x hx => ?_, pairwise_cons.mpr ⟨gap, h.gaps⟩⟩
    rcases mem_cons.mp hx with rfl | hx
    · exact hr
    · exact h.nonempty x hx

/-- Bounds below one start and below one end are met by a beginning of the row. -/
theorem Separated.starts (h : Separated ranges) (a : α) : ranges.Pairwise fun r r' =>
    decide (r'.1 ≤ a) = true → decide (r.1 ≤ a) = true := by
  apply h.gaps.imp_of_mem
  intro r r' hr _ gap hle
  have := h.nonempty r hr
  exact decide_eq_true (le_trans (le_of_lt (lt_trans this gap)) (of_decide_eq_true hle))

theorem Separated.ends (h : Separated ranges) (a : α) : ranges.Pairwise fun r r' =>
    decide (r'.2 ≤ a) = true → decide (r.2 ≤ a) = true := by
  apply h.gaps.imp_of_mem
  intro r r' _ hr' gap hle
  have := h.nonempty r' hr'
  exact decide_eq_true (le_trans (le_of_lt (lt_trans gap this)) (of_decide_eq_true hle))

theorem push_concat (ranges : List (α × α)) (last r : α × α) : push (ranges ++ [last]) r =
    if r.1 ≤ last.2 then ranges ++ [(last.1, max last.2 r.2)] else (ranges ++ [last]) ++ [r] := by
  rw [push, getLast?_concat, dropLast_concat]

theorem push_spec (h : Separated ranges) (hr : r.1 < r.2) (hs : ∀ x ∈ ranges, x.1 ≤ r.1) :
    Separated (push ranges r) ∧ (∀ x ∈ push ranges r, x.1 ≤ r.1) ∧
      ∀ a, Covers (push ranges r) a ↔ Covers ranges a ∨ (r.1 ≤ a ∧ a < r.2) := by
  have single : Separated [r] := separated_cons.mpr ⟨hr, separated_nil, nofun⟩
  rcases eq_nil_or_concat ranges with rfl | ⟨init, last, rfl⟩
  · refine ⟨single, by simp [push], fun a => ?_⟩
    change Covers [r] a ↔ _
    rw [covers_cons, or_comm]
  rw [concat_eq_append] at *
  obtain ⟨hi, hl, gap⟩ := separated_append.mp h
  have hlast : last.1 < last.2 := hl.nonempty last mem_cons_self
  have before : last.1 ≤ r.1 := hs last (mem_append_right _ mem_cons_self)
  rw [push_concat]
  split_ifs with touches
  · refine ⟨separated_append.mpr ⟨hi, ?_, ?_⟩, ?_, fun a => ?_⟩
    · exact separated_cons.mpr ⟨lt_of_lt_of_le hlast (le_max_left _ _), separated_nil, nofun⟩
    · intro x hx y hy
      rw [mem_singleton.mp hy]
      exact gap x hx last mem_cons_self
    · intro x hx
      rcases mem_append.mp hx with hx | hx
      · exact hs x (mem_append_left _ hx)
      · rw [mem_singleton.mp hx]
        exact before
    · have merged : (last.1 ≤ a ∧ a < max last.2 r.2) ↔
          (last.1 ≤ a ∧ a < last.2) ∨ (r.1 ≤ a ∧ a < r.2) := by
        rw [lt_max_iff]
        constructor
        · rintro ⟨hla, hal | har⟩
          · exact .inl ⟨hla, hal⟩
          · rcases lt_or_ge a last.2 with hal | hal
            · exact .inl ⟨hla, hal⟩
            · exact .inr ⟨le_trans touches hal, har⟩
        · rintro (⟨hla, hal⟩ | ⟨hra, har⟩)
          · exact ⟨hla, .inl hal⟩
          · exact ⟨le_trans before hra, .inr har⟩
      rw [covers_append, covers_append, covers_cons, covers_cons]
      dsimp only
      rw [merged]
      simp only [not_covers_nil, or_false, or_assoc]
  · refine ⟨separated_append.mpr ⟨h, single, ?_⟩, ?_, fun a => ?_⟩
    · intro x hx y hy
      rw [mem_singleton.mp hy]
      have behind := not_le.mp touches
      rcases mem_append.mp hx with hx | hx
      · exact lt_trans (gap x hx last mem_cons_self) (lt_trans hlast behind)
      · rw [mem_singleton.mp hx]
        exact behind
    · intro x hx
      rcases mem_append.mp hx with hx | hx
      · exact hs x hx
      · rw [mem_singleton.mp hx]
    · rw [covers_append, covers_cons]
      simp only [not_covers_nil, or_false]

theorem pushes_spec (h : Separated ranges) (hr : ∀ r ∈ raw, r.1 < r.2)
    (hs : ∀ x ∈ ranges, ∀ r ∈ raw, x.1 ≤ r.1) (sorted : raw.Pairwise fun r r' => r.1 ≤ r'.1) :
    Separated (raw.foldl push ranges) ∧
      ∀ a, Covers (raw.foldl push ranges) a ↔ Covers ranges a ∨ Covers raw a := by
  induction raw generalizing ranges with
  | nil => exact ⟨h, fun a => by simp [not_covers_nil]⟩
  | cons r raw ih =>
    obtain ⟨first, sorted⟩ := pairwise_cons.mp sorted
    obtain ⟨hp, starts, covers⟩ := push_spec h (hr r mem_cons_self)
      fun x hx => hs x hx r mem_cons_self
    obtain ⟨hf, all⟩ := ih hp (fun x hx => hr x (mem_cons_of_mem r hx))
      (fun x hx y hy => le_trans (starts x hx) (first y hy)) sorted
    refine ⟨hf, fun a => ?_⟩
    rw [foldl_cons, all, covers, covers_cons, or_assoc]

theorem sortRanges_spec (raw : List (α × α)) : (sortRanges raw).Pairwise (fun r r' => r.1 ≤ r'.1) ∧
    (∀ r ∈ sortRanges raw, r.1 < r.2) ∧ ∀ a, Covers (sortRanges raw) a ↔ Covers raw a := by
  have perm : (sortRanges raw).Perm (raw.filter fun r => r.1 < r.2) := mergeSort_perm _ _
  have mem (r : α × α) : r ∈ sortRanges raw ↔ r ∈ raw ∧ r.1 < r.2 := by
    rw [perm.mem_iff, mem_filter, decide_eq_true_eq]
  refine ⟨?_, fun r hr => ((mem r).mp hr).2, fun a => ?_⟩
  · have sorted : (sortRanges raw).Pairwise fun r r' : α × α =>
        decide (r.1 < r'.1 ∨ r.1 = r'.1 ∧ r.2 ≤ r'.2) = true := pairwise_mergeSort ?_ ?_ _
    · refine sorted.imp fun {r r'} hle => ?_
      rcases of_decide_eq_true hle with hlt | ⟨heq, -⟩
      · exact hlt.le
      · exact heq.le
    · intro x y z hxy hyz
      apply decide_eq_true
      rcases of_decide_eq_true hxy with hxy | ⟨hxy, hxy'⟩
      · rcases of_decide_eq_true hyz with hyz | ⟨hyz, -⟩
        · exact .inl (hxy.trans hyz)
        · exact .inl (hyz ▸ hxy)
      · rcases of_decide_eq_true hyz with hyz | ⟨hyz, hyz'⟩
        · exact .inl (hxy ▸ hyz)
        · exact .inr ⟨hxy.trans hyz, hxy'.trans hyz'⟩
    · intro x y
      rcases lt_trichotomy x.1 y.1 with h | h | h
      · simp [h]
      · simp [h, le_total]
      · simp [h]
  · constructor
    · rintro ⟨r, hr, ha⟩
      exact ⟨r, ((mem r).mp hr).1, ha⟩
    · rintro ⟨r, hr, ha⟩
      exact ⟨r, (mem r).mpr ⟨hr, lt_of_le_of_lt ha.1 ha.2⟩, ha⟩

theorem containsAddr_iff (h : Separated ranges) : containsAddr ranges a = true ↔ Covers ranges a := by
  obtain ⟨before, behind, rfl, hb, hb'⟩ := exists_cut (h.starts a)
  have after : ¬ Covers behind a := by
    rintro ⟨r, hr, hle, -⟩
    exact of_decide_eq_false (hb' r hr) hle
  rw [containsAddr, partitionPoint_append hb hb', covers_append]
  rcases eq_nil_or_concat before with rfl | ⟨init, last, rfl⟩
  · simp [after, not_covers_nil]
  rw [concat_eq_append] at *
  have hlast : last.1 ≤ a := of_decide_eq_true (hb last (mem_append_right _ mem_cons_self))
  have inside : ¬ Covers init a := by
    rintro ⟨r, hr, -, hlt⟩
    have gap := (separated_append.mp (separated_append.mp h).1).2.2 r hr last mem_cons_self
    exact absurd (lt_of_lt_of_le (hlt.trans gap) hlast) (lt_irrefl a)
  have found : ((init ++ [last]) ++ behind)[(init ++ [last]).length - 1]? = some last := by
    simp
  rw [found, covers_append, covers_cons]
  simp [inside, after, not_covers_nil, hlast]

/-- The range with which those that it overlaps or touches are replaced. -/
def joined (start stop : α) (merged : List (α × α)) : α × α :=
  match merged.head?, merged.getLast? with
  | some first, some last => (min start first.1, max stop last.2)
  | _, _ => (start, stop)

/-- The ranges in front of a new one, those that it overlaps or touches, and those behind. -/
structure Around (start stop : α) (before merged behind : List (α × α)) : Prop where
  before : ∀ r ∈ before, r.2 < start
  merged : ∀ r ∈ merged, start ≤ r.2 ∧ r.1 ≤ stop
  behind : ∀ r ∈ behind, stop < r.1

theorem exists_around (h : Separated ranges) (start stop : α) : ∃ before merged behind,
    ranges = before ++ (merged ++ behind) ∧ Around start stop before merged behind := by
  have ends : ranges.Pairwise fun r r' =>
      decide (r'.2 < start) = true → decide (r.2 < start) = true := by
    apply h.gaps.imp_of_mem
    intro r r' _ hr' gap hlt
    exact decide_eq_true (lt_trans (lt_trans gap (h.nonempty r' hr')) (of_decide_eq_true hlt))
  obtain ⟨before, rest, rfl, hb, hr⟩ := exists_cut ends
  obtain ⟨merged, behind, rfl, hm, hb'⟩ := exists_cut ((separated_append.mp h).2.1.starts stop)
  refine ⟨before, merged, behind, rfl, fun r hx => of_decide_eq_true (hb r hx), fun r hx => ?_,
    fun r hx => not_le.mp (of_decide_eq_false (hb' r hx))⟩
  exact ⟨not_lt.mp (of_decide_eq_false (hr r (mem_append_left _ hx))), of_decide_eq_true (hm r hx)⟩

theorem insertRange_eq (h : Separated (before ++ (merged ++ behind)))
    (around : Around start stop before merged behind) (hlt : start < stop) :
    insertRange (before ++ (merged ++ behind)) start stop =
      before ++ joined start stop merged :: behind := by
  obtain ⟨hb, hmb, -⟩ := separated_append.mp h
  obtain ⟨hm, -, -⟩ := separated_append.mp hmb
  have low : ∀ r ∈ before, decide (r.1 ≤ start) = true := fun r hr =>
    decide_eq_true (le_of_lt (lt_trans (hb.nonempty r hr) (around.before r hr)))
  have high : ∀ r ∈ behind, decide (r.1 ≤ start) = false := fun r hr =>
    decide_eq_false (not_le.mpr (lt_trans hlt (around.behind r hr)))
  -- the last range in front does not reach the new one
  have apart : ¬ (0 < before.length ∧ ((before ++ (merged ++ behind))[before.length - 1]?.any
      fun r => decide (start ≤ r.2)) = true) := by
    rintro ⟨pos, any⟩
    rw [getElem?_append_left (by omega), getElem?_eq_getElem (by omega), Option.any_some]
      at any
    exact absurd (around.before _ (getElem_mem _)) (not_lt.mpr (of_decide_eq_true any))
  have stops : partitionPoint (fun r => decide (r.1 ≤ stop)) (before ++ (merged ++ behind)) =
      (before ++ merged).length := by
    rw [← append_assoc]
    apply partitionPoint_append
    · intro r hr
      rcases mem_append.mp hr with hr | hr
      · exact decide_eq_true (le_trans (of_decide_eq_true (low r hr)) hlt.le)
      · exact decide_eq_true (around.merged r hr).2
    · exact fun r hr => decide_eq_false (not_le.mpr (around.behind r hr))
  rw [insertRange, if_neg (not_le.mpr hlt)]
  dsimp only
  rw [stops]
  cases merged with
  | nil =>
    rw [nil_append] at *
    rw [partitionPoint_append low high, if_neg apart, append_nil, if_pos le_rfl,
      take_left, drop_left]
    rfl
  | cons first rest =>
    generalize hall : before ++ (first :: rest ++ behind) = all at apart ⊢
    have head : all[before.length]? = some first := by
      rw [← hall, List.getElem?_append_right le_rfl, Nat.sub_self]
      rfl
    have lo : (if 0 < partitionPoint (fun r => decide (r.1 ≤ start)) all ∧
        (all[partitionPoint (fun r => decide (r.1 ≤ start)) all - 1]?.any
          fun r => decide (start ≤ r.2)) = true
        then partitionPoint (fun r => decide (r.1 ≤ start)) all - 1
        else partitionPoint (fun r => decide (r.1 ≤ start)) all) = before.length := by
      have later : ∀ r ∈ rest ++ behind, decide (r.1 ≤ start) = false := by
        intro r hr
        rcases mem_append.mp hr with hr | hr
        · have gap := (separated_cons.mp hm).2.2 r hr
          exact decide_eq_false (not_le.mpr
            (lt_of_le_of_lt (around.merged first mem_cons_self).1 gap))
        · exact high r hr
      by_cases hf : first.1 ≤ start
      · have point : partitionPoint (fun r => decide (r.1 ≤ start)) all = before.length + 1 := by
          have cut : all = (before ++ [first]) ++ (rest ++ behind) := by simp [← hall]
          rw [cut, partitionPoint_append _ later, length_append, length_singleton]
          intro r hr
          rcases mem_append.mp hr with hr | hr
          · exact low r hr
          · rw [mem_singleton.mp hr]
            exact decide_eq_true hf
        rw [point, Nat.add_sub_cancel, if_pos]
        refine ⟨Nat.succ_pos _, ?_⟩
        rw [head]
        exact decide_eq_true (around.merged first mem_cons_self).1
      · have point : partitionPoint (fun r => decide (r.1 ≤ start)) all = before.length := by
          rw [← hall]
          apply partitionPoint_append low
          intro r hr
          rcases mem_cons.mp hr with rfl | hr
          · exact decide_eq_false hf
          · exact later r hr
        rw [point, if_neg apart]
    obtain ⟨last, hlast⟩ : ∃ last, (first :: rest).getLast? = some last :=
      ⟨_, getLast?_eq_getLast_of_ne_nil (cons_ne_nil first rest)⟩
    have tail : all[(before ++ first :: rest).length - 1]? = some last := by
      rw [← hall, ← append_assoc, getElem?_append_left (by simp), ← getLast?_eq_getElem?,
        getLast?_append_of_ne_nil _ (cons_ne_nil first rest), hlast]
    rw [lo, if_neg (by simp), head, tail]
    dsimp only
    rw [← hall, take_left, ← append_assoc, drop_left, joined, hlast]
    rfl

theorem Separated.first_le (h : Separated (r :: ranges)) : ∀ x ∈ r :: ranges, r.1 ≤ x.1 := by
  obtain ⟨hr, -, gap⟩ := separated_cons.mp h
  intro x hx
  rcases mem_cons.mp hx with rfl | hx
  · exact le_rfl
  · exact (hr.trans (gap x hx)).le

theorem Separated.le_last (h : Separated (ranges ++ [r])) : ∀ x ∈ ranges ++ [r], x.2 ≤ r.2 := by
  obtain ⟨-, hl, gap⟩ := separated_append.mp h
  intro x hx
  rcases mem_append.mp hx with hx | hx
  · exact ((gap x hx r mem_cons_self).trans (hl.nonempty r mem_cons_self)).le
  · rw [mem_singleton.mp hx]

/-- The new range and those merged with it make one without a hole. -/
theorem joined_spec (h : Separated merged)
    (touches : ∀ r ∈ merged, start ≤ r.2 ∧ r.1 ≤ stop) :
    (joined start stop merged).1 ≤ start ∧ stop ≤ (joined start stop merged).2 ∧
      ((joined start stop merged).1 = start ∨ ∃ r ∈ merged, (joined start stop merged).1 = r.1) ∧
      ((joined start stop merged).2 = stop ∨ ∃ r ∈ merged, (joined start stop merged).2 = r.2) ∧
      ∀ a, ((joined start stop merged).1 ≤ a ∧ a < (joined start stop merged).2) ↔
        Covers merged a ∨ (start ≤ a ∧ a < stop) := by
  cases merged with
  | nil => exact ⟨le_rfl, le_rfl, .inl rfl, .inl rfl, fun a => by simp [joined, not_covers_nil]⟩
  | cons first rest =>
    obtain ⟨init, last, hlast⟩ : ∃ init last, first :: rest = init ++ [last] := by
      rcases eq_nil_or_concat (first :: rest) with hn | ⟨init, last, hl⟩
      · cases hn
      · exact ⟨init, last, by rw [hl, concat_eq_append]⟩
    have value : joined start stop (first :: rest) = (min start first.1, max stop last.2) := by
      rw [joined, hlast, getLast?_concat, ← hlast]
      rfl
    have member : last ∈ first :: rest := by
      rw [hlast]
      exact mem_append_right _ mem_cons_self
    have low := h.first_le
    have high : ∀ x ∈ first :: rest, x.2 ≤ last.2 := by
      rw [hlast] at h ⊢
      exact h.le_last
    rw [value]
    refine ⟨min_le_left _ _, le_max_left _ _, ?_, ?_, fun a => ?_⟩
    · rcases min_choice start first.1 with h | h
      · exact .inl h
      · exact .inr ⟨first, mem_cons_self, h⟩
    · rcases max_choice stop last.2 with h | h
      · exact .inl h
      · exact .inr ⟨last, member, h⟩
    rw [min_le_iff, lt_max_iff]
    constructor
    · rintro ⟨ha, ha'⟩
      rcases lt_or_ge a start with before | from_start
      · have hf : first.1 ≤ a := ha.resolve_left (not_le.mpr before)
        exact .inl ⟨first, mem_cons_self, hf, lt_of_lt_of_le before (touches first mem_cons_self).1⟩
      · rcases lt_or_ge a stop with inside | behind
        · exact .inr ⟨from_start, inside⟩
        · have hl : a < last.2 := ha'.resolve_left (not_lt.mpr behind)
          exact .inl ⟨last, member, le_trans (touches last member).2 behind, hl⟩
    · rintro (⟨r, hr, ha, ha'⟩ | ⟨ha, ha'⟩)
      · exact ⟨.inr (le_trans (low r hr) ha), .inr (lt_of_lt_of_le ha' (high r hr))⟩
      · exact ⟨.inl ha, .inl ha'⟩

theorem insertRange_spec (h : Separated ranges) (start stop : α) :
    Separated (insertRange ranges start stop) ∧ ∀ a, Covers (insertRange ranges start stop) a ↔
        Covers ranges a ∨ (start ≤ a ∧ a < stop) := by
  by_cases hlt : start < stop
  · obtain ⟨before, merged, behind, rfl, around⟩ := exists_around h start stop
    obtain ⟨hb, hmb, gap⟩ := separated_append.mp h
    obtain ⟨hm, hb', gap'⟩ := separated_append.mp hmb
    obtain ⟨low, high, first, last, covers⟩ := joined_spec hm around.merged
    rw [insertRange_eq h around hlt]
    refine ⟨separated_append.mpr ⟨hb, separated_cons.mpr ⟨?_, hb', ?_⟩, ?_⟩, fun a => ?_⟩
    · exact lt_of_le_of_lt low (lt_of_lt_of_le hlt high)
    · intro r hr
      rcases last with last | ⟨x, hx, last⟩
      · exact lt_of_eq_of_lt last (around.behind r hr)
      · exact lt_of_eq_of_lt last (gap' x hx r hr)
    · intro r hr x hx
      rcases mem_cons.mp hx with rfl | hx
      · rcases first with first | ⟨y, hy, first⟩
        · exact lt_of_lt_of_eq (around.before r hr) first.symm
        · exact lt_of_lt_of_eq (gap r hr y (mem_append_left _ hy)) first.symm
      · exact gap r hr x (mem_append_right _ hx)
    · rw [covers_append, covers_cons, covers, covers_append, covers_append]
      tauto
  · rw [insertRange, if_pos (not_lt.mp hlt)]
    refine ⟨h, fun a => ?_⟩
    have empty : ¬ (start ≤ a ∧ a < stop) := fun ha => hlt (lt_of_le_of_lt ha.1 ha.2)
    simp only [empty, or_false]

theorem point_in_iff (sorted : points.Pairwise (· ≤ ·)) (r : α × α) :
    (points[partitionPoint (fun p => decide (p < r.1)) points]?).any (fun p => decide (p < r.2)) =
      true ↔ ∃ p ∈ points, r.1 ≤ p ∧ p < r.2 := by
  have below : points.Pairwise fun x y => decide (y < r.1) = true → decide (x < r.1) = true :=
    sorted.imp fun hle hy => decide_eq_true (lt_of_le_of_lt hle (of_decide_eq_true hy))
  obtain ⟨before, behind, rfl, hb, hb'⟩ := exists_cut below
  rw [partitionPoint_append hb hb', List.getElem?_append_right le_rfl, Nat.sub_self]
  have none : ∀ p ∈ before, ¬ r.1 ≤ p := fun p hp => not_le.mpr (of_decide_eq_true (hb p hp))
  cases behind with
  | nil =>
    refine iff_of_false nofun ?_
    rintro ⟨p, hp, hle, -⟩
    rw [append_nil] at hp
    exact none p hp hle
  | cons q behind =>
    have least := (pairwise_cons.mp (pairwise_append.mp sorted).2.1).1
    constructor
    · intro hq
      exact ⟨q, mem_append_right _ mem_cons_self,
        not_lt.mp (of_decide_eq_false (hb' q mem_cons_self)), of_decide_eq_true hq⟩
    · rintro ⟨p, hp, hle, hlt⟩
      apply decide_eq_true
      rcases mem_append.mp hp with hp | hp
      · exact absurd hle (none p hp)
      rcases mem_cons.mp hp with rfl | hp
      · exact hlt
      · exact lt_of_le_of_lt (least p hp) hlt

theorem scan_iff {last : α} (h : Separated ranges)
    (sorted : points.Pairwise (· ≤ ·)) (hl : ∀ p ∈ points, p ≤ last) :
    scan points last ranges = true ↔ ∃ p ∈ points, Covers ranges p := by
  induction ranges with
  | nil => simp [scan, not_covers_nil]
  | cons r ranges ih =>
    have rest := (separated_cons.mp h).2.1
    rw [scan]
    split_ifs with behind within
    · refine iff_of_false nofun ?_
      rintro ⟨p, hp, x, hx, hle, -⟩
      have := lt_of_lt_of_le behind (le_trans (h.first_le x hx) hle)
      exact absurd (hl p hp) (not_le.mpr this)
    · obtain ⟨p, hp, hr⟩ := (point_in_iff sorted r).mp within
      exact iff_of_true rfl ⟨p, hp, r, mem_cons_self, hr⟩
    · rw [ih rest]
      constructor
      · rintro ⟨p, hp, hc⟩
        exact ⟨p, hp, covers_cons.mpr (.inr hc)⟩
      · rintro ⟨p, hp, hc⟩
        rcases covers_cons.mp hc with hr | hc
        · exact absurd ((point_in_iff sorted r).mpr ⟨p, hp, hr⟩) within
        · exact ⟨p, hp, hc⟩

theorem hitsPoints_iff (h : Separated ranges) (points : List α) :
    hitsPoints ranges points = true ↔ ∃ p ∈ points, Covers ranges p := by
  rcases eq_nil_or_concat points with rfl | ⟨init, last, hlast⟩
  · simp [hitsPoints]
  rw [concat_eq_append] at hlast
  obtain ⟨first, rest, hfirst⟩ : ∃ first rest, points = first :: rest := by
    cases points with
    | nil => exact absurd hlast (by simp)
    | cons first rest => exact ⟨first, rest, rfl⟩
  have ends : points.head? = some first ∧ points.getLast? = some last :=
    ⟨by rw [hfirst]; rfl, by rw [hlast, getLast?_concat]⟩
  rw [hitsPoints, ends.1, ends.2]
  dsimp only
  split_ifs with chain
  · have sorted : points.Pairwise (· ≤ ·) := isChain_iff_pairwise.mp chain
    have least : ∀ p ∈ points, first ≤ p := by
      rw [hfirst] at sorted ⊢
      intro p hp
      rcases mem_cons.mp hp with rfl | hp
      · exact le_rfl
      · exact (pairwise_cons.mp sorted).1 p hp
    have greatest : ∀ p ∈ points, p ≤ last := by
      rw [hlast] at sorted ⊢
      intro p hp
      rcases mem_append.mp hp with hp | hp
      · exact (pairwise_append.mp sorted).2.2 p hp last mem_cons_self
      · rw [mem_singleton.mp hp]
    obtain ⟨before, behind, rfl, hb, hb'⟩ := exists_cut (h.ends first)
    rw [partitionPoint_append hb hb', drop_left,
      scan_iff (separated_append.mp h).2.1 sorted greatest]
    apply exists_congr
    intro p
    apply and_congr_right
    intro hp
    rw [covers_append]
    refine ⟨.inr, fun hc => hc.resolve_left ?_⟩
    rintro ⟨r, hr, -, hlt⟩
    have ended : r.2 ≤ first := of_decide_eq_true (hb r hr)
    exact absurd (least p hp) (not_le.mpr (lt_of_lt_of_le hlt ended))
  · rw [any_eq_true]
    simp only [containsAddr_iff h]

end Ranges

/-- Sorted and separated by construction. -/
structure Covered (α : Type) [LinearOrder α] where
  ranges : List (α × α)
  separated : Separated ranges

namespace Covered

def empty : Covered α := ⟨[], separated_nil⟩

def from_ranges (raw : List (α × α)) : Covered α :=
  ⟨(sortRanges raw).foldl push [],
    (pushes_spec separated_nil (sortRanges_spec raw).2.1 nofun (sortRanges_spec raw).1).1⟩

def insert (c : Covered α) (start stop : α) : Covered α :=
  ⟨insertRange c.ranges start stop, (insertRange_spec c.separated start stop).1⟩

def contains (c : Covered α) (addr : α) : Bool := containsAddr c.ranges addr

def hits (c : Covered α) (points : List α) : Bool := hitsPoints c.ranges points

def carrier (c : Covered α) : Set α := {a | Covers c.ranges a}

variable {c : Covered α} {a : α}

@[simp] theorem mem_carrier : a ∈ c.carrier ↔ Covers c.ranges a := Iff.rfl

theorem carrier_empty : (empty : Covered α).carrier = ∅ := by
  ext a
  exact iff_of_false not_covers_nil (Set.notMem_empty a)

theorem mem_from_ranges : a ∈ (from_ranges raw).carrier ↔ Covers raw a := by
  obtain ⟨sorted, nonempty, covers⟩ := sortRanges_spec raw
  rw [mem_carrier, from_ranges, (pushes_spec separated_nil nonempty nofun sorted).2, covers]
  simp [not_covers_nil]

theorem mem_insert {start stop : α} :
    a ∈ (c.insert start stop).carrier ↔ a ∈ c.carrier ∨ (start ≤ a ∧ a < stop) :=
  (insertRange_spec c.separated start stop).2 a

theorem contains_iff : c.contains a = true ↔ a ∈ c.carrier := containsAddr_iff c.separated

theorem hits_iff : c.hits points = true ↔ ∃ p ∈ points, p ∈ c.carrier :=
  hitsPoints_iff c.separated points

theorem mem_inserts {ranges : List (α × α)} :
    a ∈ (ranges.foldl (fun c r => c.insert r.1 r.2) c).carrier ↔ a ∈ c.carrier ∨ Covers ranges a := by
  induction ranges generalizing c with
  | nil => simp [not_covers_nil]
  | cons r ranges ih => rw [foldl_cons, ih, mem_insert, covers_cons, or_assoc]

end Covered

end CoveredRanges
