import Reargo.PcodeModel
import Reargo.SortedKeys

/-!
# Sets of address ranges

A sorted vector of distinct ranges. It is built by adding ranges one at a time, by
collecting them or by reading them back, and answers whether an address is in it by
looking at one range.
-/
namespace AddressSets

open PcodeModel SortedKeys BitVec

structure Address where
  space : SpaceId
  offset : U64
  deriving DecidableEq, Repr

structure AddressRange where
  start : Address
  size : U64
  deriving DecidableEq, Repr

/-- Addition that stops at the last address. -/
def saturatingAdd (a b : U64) : U64 :=
  if a.toNat + b.toNat < 2 ^ 64 then a + b else BitVec.allOnes 64

namespace AddressRange

def endOffset (r : AddressRange) : U64 := saturatingAdd r.start.offset r.size

def contains (r : AddressRange) (a : Address) : Bool :=
  a.space = r.start.space ∧ r.start.offset ≤ a.offset ∧ a.offset < r.endOffset

end AddressRange

def addressKey (a : Address) : ℕ ×ₗ U64 := toLex (a.space, a.offset)

def rangeKey (r : AddressRange) : ℕ ×ₗ U64 ×ₗ U64 :=
  toLex (r.start.space, toLex (r.start.offset, r.size))

structure AddressSet where
  ranges : List AddressRange
  sorted : Ascending rangeKey ranges

theorem rangeKey_injective : Function.Injective rangeKey := by
  rintro ⟨⟨sp, off⟩, sz⟩ ⟨⟨sp', off'⟩, sz'⟩ h
  simp only [rangeKey, toLex_inj, Prod.mk.injEq] at h
  obtain ⟨rfl, rfl, rfl⟩ := h
  rfl

namespace AddressSet

def new : AddressSet := ⟨[], List.Pairwise.nil⟩

def add (s : AddressSet) (range : AddressRange) : AddressSet :=
  ⟨insertKey rangeKey range s.ranges, (insertKey_spec rangeKey_injective s.sorted range).1⟩

def fromIter (ranges : List AddressRange) : AddressSet :=
  ⟨normalize rangeKey ranges, (normalize_spec rangeKey_injective ranges).1⟩

/-- The set of the ranges read back, which may come from anywhere. -/
def deserialize (ranges : List AddressRange) : AddressSet :=
  ⟨normalize rangeKey ranges, (normalize_spec rangeKey_injective ranges).1⟩

def contains (s : AddressSet) (a : Address) : Bool :=
  match partitionPoint (fun r => addressKey r.start ≤ addressKey a) s.ranges with
  | 0 => false
  | i + 1 => (s.ranges[i]?).any fun r => r.contains a

end AddressSet

inductive Built : AddressSet → List AddressRange → Prop
  | new : Built .new []
  | fromIter (ranges : List AddressRange) : Built (.fromIter ranges) ranges
  | deserialize (ranges : List AddressRange) : Built (.deserialize ranges) ranges
  | add {s : AddressSet} {given : List AddressRange} (range : AddressRange) (h : Built s given) :
    Built (s.add range) (given ++ [range])

section Build

variable {s s' : AddressSet} {given given' : List AddressRange}

theorem Built.mem_ranges (h : Built s given) (r : AddressRange) : r ∈ s.ranges ↔ r ∈ given := by
  induction h with
  | new => exact .rfl
  | fromIter ranges => exact (normalize_spec rangeKey_injective ranges).2 r
  | deserialize ranges => exact (normalize_spec rangeKey_injective ranges).2 r
  | @add s given range h ih =>
    rw [List.mem_append, List.mem_singleton, ← ih]
    exact ((insertKey_spec rangeKey_injective s.sorted range).2 r).trans or_comm

theorem AddressSet.ext_of_mem (h : ∀ r, r ∈ s.ranges ↔ r ∈ s'.ranges) : s = s' := by
  obtain ⟨ranges, sorted⟩ := s
  obtain ⟨ranges', sorted'⟩ := s'
  have heq : ranges = ranges' := sorted.ext sorted' h
  subst heq
  rfl

theorem Built.unique (h : Built s given) (h' : Built s' given')
    (hmem : ∀ r, r ∈ given ↔ r ∈ given') : s = s' :=
  AddressSet.ext_of_mem fun r => by rw [h.mem_ranges, h'.mem_ranges, hmem]

end Build

def Disjoint (ranges : List AddressRange) : Prop :=
  ∀ r ∈ ranges, ∀ r' ∈ ranges, r ≠ r' → ∀ a, ¬ (r.contains a = true ∧ r'.contains a = true)

section Contains

variable {s : AddressSet} {a : Address} {r r' : AddressRange}

theorem contains_iff : r.contains a = true ↔
    a.space = r.start.space ∧ r.start.offset ≤ a.offset ∧ a.offset < r.endOffset := by
  unfold AddressRange.contains
  rw [decide_eq_true_eq]

theorem addressKey_le_iff {a b : Address} : addressKey a ≤ addressKey b ↔
    a.space < b.space ∨ (a.space = b.space ∧ a.offset ≤ b.offset) := by
  unfold addressKey
  rw [Prod.Lex.toLex_le_toLex]

theorem start_le_of_key_le (h : rangeKey r ≤ rangeKey r') :
    addressKey r.start ≤ addressKey r'.start := by
  unfold rangeKey at h
  rw [Prod.Lex.toLex_le_toLex] at h
  rw [addressKey_le_iff]
  rcases h with h | ⟨hsp, h⟩
  · exact .inl h
  · right
    refine ⟨hsp, ?_⟩
    rw [Prod.Lex.toLex_le_toLex] at h
    rcases h with h | ⟨h, -⟩
    · exact le_of_lt h
    · exact le_of_eq h

theorem start_le_of_contains (h : r.contains a = true) : addressKey r.start ≤ addressKey a := by
  obtain ⟨hsp, hle, -⟩ := contains_iff.mp h
  exact addressKey_le_iff.mpr (.inr ⟨hsp.symm, hle⟩)

theorem contains_start (hsize : r.size ≠ 0) (hlast : r.start.offset ≠ BitVec.allOnes 64) :
    r.contains r.start = true := by
  rw [contains_iff]
  refine ⟨rfl, le_refl _, ?_⟩
  unfold AddressRange.endOffset saturatingAdd
  have hpos : 0 < r.size.toNat := by
    rcases Nat.eq_zero_or_pos r.size.toNat with h | h
    · exact absurd (eq_of_toNat_eq h) hsize
    · exact h
  have hne : r.start.offset.toNat ≠ 2 ^ 64 - 1 := fun h =>
    hlast (eq_of_toNat_eq (by rw [h, toNat_allOnes]))
  have hlt := r.start.offset.isLt
  split
  · next hfit =>
    rw [lt_def, toNat_add, Nat.mod_eq_of_lt hfit]
    omega
  · rw [lt_def, toNat_allOnes]
    omega

theorem starts_before_iff {i : ℕ} (hr : s.ranges[i]? = some r) : addressKey r.start ≤ addressKey a ↔
      i < partitionPoint (fun x => addressKey x.start ≤ addressKey a) s.ranges := by
  constructor
  · intro hle
    by_contra hge
    have hlen := (List.getElem?_eq_some_iff.mp hr).1
    have hx := List.getElem?_eq_getElem (l := s.ranges)
      (i := partitionPoint (fun x => decide (addressKey x.start ≤ addressKey a)) s.ranges)
      (by omega)
    have hneg := neg_at_partitionPoint hx
    rw [decide_eq_false_iff_not] at hneg
    rcases Nat.lt_or_eq_of_le (not_lt.mp hge) with hlt | heq
    · exact hneg ((start_le_of_key_le (s.sorted.getElem?_lt hlt hx hr).le).trans hle)
    · rw [← heq, hx] at hr
      rw [Option.some.inj hr] at hneg
      exact hneg hle
  · intro hi
    exact of_decide_eq_true (pos_of_lt_partitionPoint
      (p := fun x => decide (addressKey x.start ≤ addressKey a)) hi hr)

theorem contains_iff_exists (hdisjoint : Disjoint s.ranges) (hsize : ∀ r ∈ s.ranges, r.size ≠ 0) :
    s.contains a = true ↔ ∃ r ∈ s.ranges, r.contains a = true := by
  unfold AddressSet.contains
  constructor
  · intro h
    split at h
    · cases h
    · next i _ =>
      obtain ⟨r, hr, hc⟩ := Option.any_eq_true _ _ |>.mp h
      exact ⟨r, List.mem_of_getElem? hr, hc⟩
  · rintro ⟨r, hr, hc⟩
    obtain ⟨j, hj⟩ := List.mem_iff_getElem?.mp hr
    have hjp := (starts_before_iff hj).mp (start_le_of_contains hc)
    split
    · omega
    · next i hi =>
      have hlen := partitionPoint_le (fun x => decide (addressKey x.start ≤ addressKey a)) s.ranges
      obtain ⟨r', hr'⟩ : ∃ r', s.ranges[i]? = some r' :=
        ⟨_, List.getElem?_eq_getElem (by omega)⟩
      have hr'a : addressKey r'.start ≤ addressKey a := (starts_before_iff hr').mpr (by omega)
      rw [hr', Option.any_some]
      rcases lt_or_ge j i with hlt | hge
      · -- `r` starts before `r'`, which starts before the end of `r`
        exfalso
        have hkey := s.sorted.getElem?_lt hlt hj hr'
        have hne : r ≠ r' := fun heq => absurd (congrArg rangeKey heq) hkey.ne
        obtain ⟨hsp, -, hhi⟩ := contains_iff.mp hc
        have hss := addressKey_le_iff.mp (start_le_of_key_le hkey.le)
        have hsa := addressKey_le_iff.mp hr'a
        rw [hsp] at hsa
        have hspace : r.start.space = r'.start.space := by
          rcases hss with hlt' | ⟨heq, -⟩
          · rcases hsa with hgt | ⟨heq, -⟩
            · exact absurd hgt (lt_asymm hlt')
            · exact heq.symm
          · exact heq
        rw [hspace] at hss hsa
        have hstart : r.start.offset ≤ r'.start.offset := (hss.resolve_left (lt_irrefl _)).2
        have hle : r'.start.offset ≤ a.offset := (hsa.resolve_left (lt_irrefl _)).2
        have hend : r'.start.offset < r.endOffset := lt_of_le_of_lt hle hhi
        have hlast : r'.start.offset ≠ BitVec.allOnes 64 := by
          intro heq
          rw [heq, lt_def, toNat_allOnes] at hend
          have := r.endOffset.isLt
          omega
        have hself : r'.contains r'.start = true :=
          contains_start (hsize r' (List.mem_of_getElem? hr')) hlast
        have hother : r.contains r'.start = true :=
          contains_iff.mpr ⟨hspace.symm, hstart, hend⟩
        exact hdisjoint r hr r' (List.mem_of_getElem? hr') hne _ ⟨hother, hself⟩
      · have heq : j = i := by omega
        subst heq
        rw [← Option.some.inj (hj.symm.trans hr')]
        exact hc

end Contains

/-- A set is its ranges in order, each once, however it was built; and of disjoint ranges
that are not empty, one look finds the one with an address. -/
theorem addressSet_faithful {s : AddressSet} {given : List AddressRange} (h : Built s given) :
    Ascending rangeKey s.ranges ∧ (∀ r, r ∈ s.ranges ↔ r ∈ given) ∧
      (∀ s' given', Built s' given' → (∀ r, r ∈ given ↔ r ∈ given') → s = s') ∧
      (Disjoint s.ranges → (∀ r ∈ s.ranges, r.size ≠ 0) →
        ∀ a, s.contains a = true ↔ ∃ r ∈ s.ranges, r.contains a = true) :=
  ⟨s.sorted, h.mem_ranges, fun _ _ h' hmem => h.unique h' hmem,
    fun hdisjoint hsize _ => contains_iff_exists hdisjoint hsize⟩

theorem addressSet_faithful_repeat :
    let given : List AddressRange := [⟨⟨1, 16⟩, 4⟩, ⟨⟨1, 8⟩, 2⟩]
    let s := (AddressSet.fromIter given).add ⟨⟨1, 16⟩, 4⟩
    Ascending rangeKey s.ranges ∧ (∀ r, r ∈ s.ranges ↔ r ∈ given ++ [⟨⟨1, 16⟩, 4⟩]) ∧
      s = AddressSet.fromIter given.reverse ∧
      ∀ a, s.contains a = true ↔ ∃ r ∈ s.ranges, r.contains a = true := by
  intro given s
  obtain ⟨ascending, mem, unique, contains⟩ := addressSet_faithful (.add _ (.fromIter given))
  have either {r : AddressRange} (hr : r ∈ s.ranges) : r = ⟨⟨1, 16⟩, 4⟩ ∨ r = ⟨⟨1, 8⟩, 2⟩ := by
    have hgiven := (mem r).mp hr
    simp [given] at hgiven
    tauto
  refine ⟨ascending, mem, unique _ _ (.fromIter given.reverse) (by simp [given]), contains ?_ ?_⟩
  · intro r hr r' hr' hne a ⟨ha, ha'⟩
    have past : ∀ b : U64, ¬ ((16 ≤ b ∧ b < 20) ∧ 8 ≤ b ∧ b < 10) := fun b => by bv_omega
    rcases either hr with rfl | rfl <;> rcases either hr' with rfl | rfl
    · exact hne rfl
    · exact past a.offset ⟨(of_decide_eq_true ha).2, (of_decide_eq_true ha').2⟩
    · exact past a.offset ⟨(of_decide_eq_true ha').2, (of_decide_eq_true ha).2⟩
    · exact hne rfl
  · intro r hr
    rcases either hr with rfl | rfl <;> decide

end AddressSets
