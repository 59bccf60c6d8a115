import Reargo.OrderedMap
import Reargo.PcodeModel

/-!
# Abstract values

The values a register may have, as some points, the hull of them when there are too many, or
nothing known. Every value but the least and the greatest is made of its points, and a join
of two is made of the points of both.
-/
namespace ValueSets

open PcodeModel Finset

/-- More points than these are kept as a range. -/
def setWidenThreshold : ℕ := 8

inductive AbstractValue where
  | bot
  | const (v : U64)
  | set (s : Finset U64)
  | range (lo hi : U64)
  | top
  deriving DecidableEq

namespace AbstractValue

def widen (s : Finset U64) : AbstractValue :=
  if h : setWidenThreshold < s.card then
    have hs : s.Nonempty := card_pos.mp (Nat.zero_lt_of_lt h)
    range (s.min' hs) (s.max' hs)
  else set s

def join : AbstractValue → AbstractValue → AbstractValue
  | bot, x => x
  | x, bot => x
  | top, _ => top
  | _, top => top
  | const a, const b => if a = b then const a else set {a, b}
  | const a, set s => widen (insert a s)
  | set s, const a => widen (insert a s)
  | set a, set b => widen (a ∪ b)
  | const a, range lo hi => range (min lo a) (max hi a)
  | range lo hi, const a => range (min lo a) (max hi a)
  | set s, range lo hi => range (min (s.min.untopD lo) lo) (max (s.max.unbotD hi) hi)
  | range lo hi, set s => range (min (s.min.untopD lo) lo) (max (s.max.unbotD hi) hi)
  | range a b, range c d => range (min a c) (max b d)

def Normal : AbstractValue → Prop
  | set s => 1 < s.card ∧ s.card ≤ setWidenThreshold
  | range lo hi => lo < hi
  | _ => True

instance : ∀ x, Decidable (Normal x)
  | set _ => inferInstanceAs (Decidable (_ ∧ _))
  | range lo hi => inferInstanceAs (Decidable (lo < hi))
  | bot | const _ | top => inferInstanceAs (Decidable True)

def Describes : AbstractValue → U64 → Prop
  | bot, _ => False
  | const v, x => x = v
  | set s, x => x ∈ s
  | range lo hi, x => lo ≤ x ∧ x ≤ hi
  | top, _ => True

def Wide (wide : Bool) (s : Finset U64) : Prop := wide = true ∨ setWidenThreshold < s.card

instance (wide : Bool) (s : Finset U64) : Decidable (Wide wide s) :=
  inferInstanceAs (Decidable (_ ∨ _))

/-- The value of some points, as a range when asked to or when there are too many. -/
def ofPoints (wide : Bool) (s : Finset U64) (h : s.Nonempty) : AbstractValue :=
  if Wide wide s then range (s.min' h) (s.max' h)
  else if s.card = 1 then const (s.min' h) else set s

variable {w w' : Bool} {s t : Finset U64} {h : s.Nonempty} {h' : t.Nonempty} {x y z : AbstractValue}

theorem ofPoints_wide (hw : Wide w s) : ofPoints w s h = range (s.min' h) (s.max' h) := if_pos hw

theorem ofPoints_singleton (a : U64) : ofPoints false {a} (singleton_nonempty a) = const a := by
  rw [ofPoints, if_neg (by rw [Wide, card_singleton]; decide), if_pos (card_singleton a),
    min'_singleton]

theorem ofPoints_many (hw : ¬ Wide w s) (hs : 1 < s.card) : ofPoints w s h = set s := by
  rw [ofPoints, if_neg hw, if_neg hs.ne']

theorem ofPoints_congr (hw : w = w') (hs : s = t) : ofPoints w s h = ofPoints w' t h' := by
  subst hw hs
  rfl

/-- Points are kept as a range, a single value or a set. -/
theorem ofPoints_cases (w : Bool) (s : Finset U64) (h : s.Nonempty) :
    Wide w s ∨ (w = false ∧ ∃ a, s = {a}) ∨ (w = false ∧ ¬ Wide w s ∧ 1 < s.card) := by
  by_cases hw : Wide w s
  · exact .inl hw
  · have hfalse : w = false := Bool.eq_false_iff.mpr fun hc => hw (.inl hc)
    rcases (Nat.succ_le_of_lt h.card_pos).eq_or_lt with hone | hmany
    · exact .inr (.inl ⟨hfalse, card_eq_one.mp hone.symm⟩)
    · exact .inr (.inr ⟨hfalse, hw, hmany⟩)

theorem Wide.union_left (hw : Wide w s) : Wide (w || w') (s ∪ t) :=
  hw.imp (fun hw => by rw [hw, Bool.true_or]) fun hs => hs.trans_le (card_le_card subset_union_left)

theorem Wide.union_right (hw : Wide w' t) : Wide (w || w') (s ∪ t) :=
  hw.imp (fun hw => by rw [hw, Bool.or_true])
    fun ht => ht.trans_le (card_le_card subset_union_right)

theorem widen_eq (hs : 1 < s.card) : widen s = ofPoints false s h := by
  by_cases hw : setWidenThreshold < s.card
  · rw [widen, dif_pos hw, ofPoints_wide (.inr hw)]
  · rw [widen, dif_neg hw, ofPoints_many (not_or.mpr ⟨Bool.false_ne_true, hw⟩) hs]

theorem join_comm (x y : AbstractValue) : join x y = join y x := by
  cases x <;> cases y <;> simp only [join]
  case const.const a b =>
    by_cases hab : a = b
    · rw [hab]
    · rw [if_neg hab, if_neg (Ne.symm hab), pair_comm]
  case set.set a b => rw [union_comm]
  case range.range a b c d => rw [min_comm, max_comm]

-- the order of words brings a test for equality of its own
theorem min'_union (h : s.Nonempty) (h' : t.Nonempty) :
    (s ∪ t).min' (h.mono subset_union_left) = min (s.min' h) (t.min' h') := by
  convert Finset.min'_union h h'

theorem max'_union (h : s.Nonempty) (h' : t.Nonempty) :
    (s ∪ t).max' (h.mono subset_union_left) = max (s.max' h) (t.max' h') := by
  convert Finset.max'_union h h'

theorem join_range (hw : Wide w s) : join (ofPoints w s h) (ofPoints w' t h') =
      range ((s ∪ t).min' (h.mono subset_union_left))
        ((s ∪ t).max' (h.mono subset_union_left)) := by
  rw [ofPoints_wide hw, min'_union h h', max'_union h h']
  rcases ofPoints_cases w' t h' with hw' | ⟨rfl, a, rfl⟩ | ⟨rfl, hw', ht⟩
  · rw [ofPoints_wide hw']
    rfl
  · rw [ofPoints_singleton, min'_singleton, max'_singleton]
    rfl
  · rw [ofPoints_many hw' ht]
    change range (min (t.min.untopD _) _) (max (t.max.unbotD _) _) = _
    rw [← coe_min' h', ← coe_max' h', min_comm, max_comm]
    rfl

theorem join_ofPoints (w w' : Bool) (h : s.Nonempty) (h' : t.Nonempty) :
    join (ofPoints w s h) (ofPoints w' t h') =
      ofPoints (w || w') (s ∪ t) (h.mono subset_union_left) := by
  rcases ofPoints_cases w s h with hw | hs
  · rw [join_range hw, ofPoints_wide hw.union_left]
  rcases ofPoints_cases w' t h' with hw' | ht
  · rw [join_comm, join_range hw', ofPoints_wide hw'.union_right]
    simp only [union_comm]
  rcases hs with ⟨rfl, a, rfl⟩ | ⟨rfl, hw, hs⟩ <;> rcases ht with ⟨rfl, b, rfl⟩ | ⟨rfl, hw', ht⟩
  · rw [ofPoints_singleton, ofPoints_singleton]
    by_cases hab : a = b
    · subst hab
      rw [join, if_pos rfl, ← ofPoints_singleton a]
      exact ofPoints_congr rfl (union_self _).symm
    · have hcard : ({a, b} : Finset U64).card = 2 := card_pair hab
      have hnarrow : ¬ Wide false {a, b} := by
        rw [Wide, hcard]
        decide
      rw [join, if_neg hab, ← ofPoints_many (h := insert_nonempty a {b}) hnarrow (by omega)]
      exact ofPoints_congr rfl rfl
  · rw [ofPoints_singleton, ofPoints_many hw' ht]
    exact widen_eq (ht.trans_le (card_le_card (subset_insert a t)))
  · rw [ofPoints_singleton, ofPoints_many hw hs, join_comm]
    refine (widen_eq (h := insert_nonempty b s) (hs.trans_le ?_)).trans
      (ofPoints_congr rfl (union_comm {b} s))
    exact card_le_card (subset_insert b s)
  · rw [ofPoints_many hw hs, ofPoints_many hw' ht]
    exact widen_eq (hs.trans_le (card_le_card subset_union_left))

theorem describes_ofPoints {v : U64} : Describes (ofPoints w s h) v ↔
    if Wide w s then s.min' h ≤ v ∧ v ≤ s.max' h else v ∈ s := by
  rcases ofPoints_cases w s h with hw | ⟨rfl, a, rfl⟩ | ⟨rfl, hw, hs⟩
  · rw [ofPoints_wide hw, if_pos hw]
    rfl
  · rw [ofPoints_singleton, if_neg (by rw [Wide, card_singleton]; decide), mem_singleton]
    rfl
  · rw [ofPoints_many hw hs, if_neg hw]
    rfl

theorem Describes.union_left {v : U64} (hv : Describes (ofPoints w s h) v) :
    Describes (ofPoints (w || w') (s ∪ t) (h.mono subset_union_left)) v := by
  rw [describes_ofPoints] at hv ⊢
  have hsub : s ⊆ s ∪ t := subset_union_left
  have hbounds : s.min' h ≤ v ∧ v ≤ s.max' h := by
    split at hv
    · exact hv
    · exact ⟨min'_le s v hv, le_max' s v hv⟩
  split
  · exact ⟨(min'_subset h hsub).trans hbounds.1, hbounds.2.trans (max'_subset h hsub)⟩
  · next hnarrow =>
    rw [if_neg fun hw => hnarrow hw.union_left] at hv
    exact hsub hv

theorem normal_iff : Normal x ↔ x = bot ∨ x = top ∨
    ∃ w s h, (w = true → 1 < s.card) ∧ x = ofPoints w s h := by
  constructor
  · intro hx
    cases x with
    | bot => exact .inl rfl
    | top => exact .inr (.inl rfl)
    | const v =>
      exact .inr (.inr ⟨false, {v}, _, fun hc => absurd hc Bool.false_ne_true,
        (ofPoints_singleton v).symm⟩)
    | set s =>
      have hs : s.Nonempty := card_pos.mp (Nat.zero_lt_of_lt hx.1)
      refine .inr (.inr ⟨false, s, hs, fun hc => absurd hc Bool.false_ne_true, ?_⟩)
      exact (ofPoints_many (not_or.mpr ⟨Bool.false_ne_true, not_lt.mpr hx.2⟩) hx.1).symm
    | range lo hi =>
      have hlt : lo < hi := hx
      refine .inr (.inr ⟨true, {lo, hi}, insert_nonempty lo {hi}, fun _ => ?_, ?_⟩)
      · rw [card_pair hlt.ne]
        decide
      · rw [ofPoints_wide (.inl rfl)]
        have left := singleton_nonempty lo
        have right := singleton_nonempty hi
        exact congrArg₂ range ((min_eq_left hlt.le).symm.trans (min'_union left right).symm)
          ((max_eq_right hlt.le).symm.trans (max'_union left right).symm)
  · rintro (rfl | rfl | ⟨w, s, h, hcard, rfl⟩)
    · trivial
    · trivial
    · rcases ofPoints_cases w s h with hw | ⟨rfl, a, rfl⟩ | ⟨rfl, hw, hs⟩
      · rw [ofPoints_wide hw]
        refine min'_lt_max'_of_card s (hw.elim hcard fun hs => ?_)
        exact lt_trans (by decide) hs
      · rw [ofPoints_singleton]
        trivial
      · rw [ofPoints_many hw hs]
        exact ⟨hs, not_lt.mp fun hc => hw (.inr hc)⟩

@[simp]
theorem bot_join (x : AbstractValue) : join bot x = x := by cases x <;> rfl

@[simp]
theorem join_bot (x : AbstractValue) : join x bot = x := by cases x <;> rfl

@[simp]
theorem top_join (x : AbstractValue) : join top x = top := by cases x <;> rfl

@[simp]
theorem join_top (x : AbstractValue) : join x top = top := by cases x <;> rfl

theorem join_assoc (hx : Normal x) (hy : Normal y) (hz : Normal z) :
    join (join x y) z = join x (join y z) := by
  rcases normal_iff.mp hx with rfl | rfl | ⟨w₁, s₁, h₁, -, rfl⟩
  · rw [bot_join, bot_join]
  · rw [top_join, top_join, top_join]
  rcases normal_iff.mp hy with rfl | rfl | ⟨w₂, s₂, h₂, -, rfl⟩
  · rw [join_bot, bot_join]
  · rw [join_top, top_join, join_top]
  rcases normal_iff.mp hz with rfl | rfl | ⟨w₃, s₃, h₃, -, rfl⟩
  · rw [join_bot, join_bot]
  · rw [join_top, join_top, join_top]
  rw [join_ofPoints, join_ofPoints, join_ofPoints, join_ofPoints]
  exact ofPoints_congr (Bool.or_assoc _ _ _) (union_assoc _ _ _)

theorem join_self (hx : Normal x) : join x x = x := by
  rcases normal_iff.mp hx with rfl | rfl | ⟨w, s, h, -, rfl⟩
  · rfl
  · rfl
  · rw [join_ofPoints]
    exact ofPoints_congr (Bool.or_self w) (union_self s)

theorem describes_join_left (hx : Normal x) (hy : Normal y) {v : U64} (hv : Describes x v) :
    Describes (join x y) v := by
  rcases normal_iff.mp hx with rfl | rfl | ⟨w, s, h, -, rfl⟩
  · exact absurd hv id
  · rw [top_join]
    trivial
  rcases normal_iff.mp hy with rfl | rfl | ⟨w', t, h', -, rfl⟩
  · rwa [join_bot]
  · rw [join_top]
    trivial
  rw [join_ofPoints]
  exact hv.union_left

theorem normal_join (hx : Normal x) (hy : Normal y) : Normal (join x y) := by
  rcases normal_iff.mp hx with rfl | rfl | ⟨w, s, h, hs, rfl⟩
  · rwa [bot_join]
  · rwa [top_join]
  rcases normal_iff.mp hy with rfl | rfl | ⟨w', t, h', ht, rfl⟩
  · rwa [join_bot]
  · rwa [join_top]
  rw [join_ofPoints]
  refine normal_iff.mpr (.inr (.inr ⟨_, _, _, fun hw => ?_, rfl⟩))
  rcases Bool.or_eq_true_iff.mp hw with hw | hw
  · exact (hs hw).trans_le (card_le_card subset_union_left)
  · exact (ht hw).trans_le (card_le_card subset_union_right)

/-- On values in normal form the join is a semilattice operation with the least value as its
identity, describes what either value does and stays in normal form. -/
theorem join_laws {a b c : AbstractValue} (ha : Normal a) (hb : Normal b) (hc : Normal c) :
    join a b = join b a ∧ join (join a b) c = join a (join b c) ∧ join a a = a ∧
      join bot a = a ∧ join a bot = a ∧
      (∀ v, Describes a v ∨ Describes b v → Describes (join a b) v) ∧ Normal (join a b) := by
  refine ⟨join_comm a b, join_assoc ha hb hc, join_self ha, bot_join a, join_bot a, ?_,
    normal_join ha hb⟩
  rintro v (hv | hv)
  · exact describes_join_left ha hb hv
  · rw [join_comm]
    exact describes_join_left hb ha hv

theorem join_laws_range :
    let a := const 3
    let b := set {1, 9}
    let c := range 4 6
    join a b = join b a ∧ join (join a b) c = join a (join b c) ∧ join a a = a ∧
      join bot a = a ∧ join a bot = a ∧
      (∀ v, Describes a v ∨ Describes b v → Describes (join a b) v) ∧ Normal (join a b) :=
  join_laws trivial (by decide) (by decide : Normal (range 4 6))

end AbstractValue

end ValueSets
