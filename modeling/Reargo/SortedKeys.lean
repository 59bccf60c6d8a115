import Reargo.OrderedMap
import Mathlib.Data.List.Destutter
import Mathlib.Data.List.TakeWhile

/-!
# Lists in strictly increasing key order

A sorted vector of distinct elements, ordered by a key that tells them apart. Such a
list is determined by its elements, so any way to build it gives the same list.
-/
namespace SortedKeys

open List

variable {α κ : Type*} [LinearOrder κ]

/-- Strictly increasing keys. -/
def Ascending (key : α → κ) (l : List α) : Prop := l.Pairwise fun a b => key a < key b

/-- Neighbours increase. -/
def isSorted (key : α → κ) (l : List α) : Bool := l.IsChain fun a b => key a < key b

/-- The index of the first element that does not satisfy `p`. -/
def partitionPoint (p : α → Bool) (l : List α) : ℕ := (l.takeWhile p).length

/-- The index of the key, or the one it would be inserted at. -/
def binarySearch (key : α → κ) (k : κ) (l : List α) : Except ℕ ℕ :=
  let i := partitionPoint (fun a => key a < k) l
  match l[i]? with
  | some a => if key a = k then .ok i else .error i
  | none => .error i

/-- An element after the last one, or at its place; a repeat changes nothing. -/
def insertKey (key : α → κ) (a : α) (l : List α) : List α :=
  match l.getLast? with
  | none => l ++ [a]
  | some last =>
    if key last < key a then l ++ [a]
    else
      match binarySearch key (key a) l with
      | .ok _ => l
      | .error i => l.take i ++ a :: l.drop i

section Normalize

variable [DecidableEq α]

/-- Sorted, each element once. -/
def normalize (key : α → κ) (l : List α) : List α :=
  if isSorted key l then l
  else (l.mergeSort fun a b => key a ≤ key b).destutter (· ≠ ·)

end Normalize

section Ascending

variable {key : α → κ} {l l' : List α}

instance instTransKey : Trans (fun a b : α => key a < key b) (fun a b => key a < key b)
    (fun a b => key a < key b) := ⟨lt_trans⟩

theorem isSorted_iff : isSorted key l = true ↔ Ascending key l := by
  unfold isSorted Ascending
  rw [decide_eq_true_eq, isChain_iff_pairwise]

theorem Ascending.nodup (h : Ascending key l) : l.Nodup :=
  List.Pairwise.imp (fun hab heq => absurd (congrArg key heq) hab.ne) h

/-- The elements determine the list. -/
theorem Ascending.ext (h : Ascending key l) (h' : Ascending key l') (hmem : ∀ a, a ∈ l ↔ a ∈ l') :
    l = l' := by
  have hperm : l.Perm l' := (perm_ext_iff_of_nodup h.nodup h'.nodup).mpr hmem
  refine hperm.eq_of_pairwise ?_ h h'
  exact fun a b _ _ hab hba => absurd hba (lt_asymm hab)

theorem Ascending.getElem?_lt (h : Ascending key l) {i j : ℕ} (hij : i < j) {a b : α}
    (ha : l[i]? = some a) (hb : l[j]? = some b) : key a < key b := by
  obtain ⟨hi, rfl⟩ := List.getElem?_eq_some_iff.mp ha
  obtain ⟨hj, rfl⟩ := List.getElem?_eq_some_iff.mp hb
  exact pairwise_iff_getElem.mp h i j hi hj hij

end Ascending

section Partition

variable {p : α → Bool} {l : List α} {i : ℕ} {a : α}

theorem partitionPoint_le (p : α → Bool) (l : List α) : partitionPoint p l ≤ l.length :=
  List.IsPrefix.length_le (List.takeWhile_prefix p)

theorem take_partitionPoint (p : α → Bool) (l : List α) :
    l.take (partitionPoint p l) = l.takeWhile p := by
  unfold partitionPoint
  exact (prefix_iff_eq_take.mp (List.takeWhile_prefix p)).symm

theorem drop_partitionPoint (p : α → Bool) (l : List α) :
    l.drop (partitionPoint p l) = l.dropWhile p := by
  have happ := takeWhile_append_dropWhile (p := p) (l := l)
  rw [← take_partitionPoint] at happ
  exact append_cancel_left ((take_append_drop _ l).trans happ.symm)

theorem pos_of_lt_partitionPoint (hi : i < partitionPoint p l) (ha : l[i]? = some a) :
    p a = true := by
  have hmem : a ∈ l.takeWhile p := by
    rw [← take_partitionPoint]
    refine mem_of_getElem? (i := i) ?_
    rw [getElem?_take_of_lt hi]
    exact ha
  exact mem_takeWhile_imp hmem

theorem neg_at_partitionPoint (ha : l[partitionPoint p l]? = some a) : p a = false := by
  have hhead : (l.dropWhile p).head? = some a := by
    rw [← drop_partitionPoint, head?_drop]
    exact ha
  have hneg := head?_dropWhile_not p l
  rw [hhead] at hneg
  simpa using hneg

end Partition

section Insert

variable {key : α → κ} {l : List α} {a : α}

theorem ascending_append (h : Ascending key l) (ha : ∀ x ∈ l, key x < key a) :
    Ascending key (l ++ [a]) := by
  refine pairwise_append.mpr ⟨h, pairwise_singleton _ _, fun x hx y hy => ?_⟩
  rw [mem_singleton.mp hy]
  exact ha x hx

theorem Ascending.le_getLast (h : Ascending key l) {last : α} (hlast : l.getLast? = some last)
    {x : α} (hx : x ∈ l) : key x ≤ key last := by
  obtain ⟨i, hi⟩ := mem_iff_getElem?.mp hx
  have hlt := (List.getElem?_eq_some_iff.mp hi).1
  rw [List.getLast?_eq_getElem?] at hlast
  by_cases hlen : i = l.length - 1
  · subst hlen
    rw [Option.some.inj (hi.symm.trans hlast)]
  · exact (h.getElem?_lt (show i < l.length - 1 by omega) hi hlast).le

/-- The places before the key's are below it, the others are not. -/
theorem Ascending.at_partitionPoint (h : Ascending key l) (k : κ) {i : ℕ} {x : α}
    (hx : l[i]? = some x) :
    key x < k ↔ i < partitionPoint (fun y => key y < k) l := by
  constructor
  · intro hlt
    by_contra hge
    have hlen := (List.getElem?_eq_some_iff.mp hx).1
    have hpp : partitionPoint (fun y => decide (key y < k)) l < l.length := by omega
    have hy := List.getElem?_eq_getElem hpp
    have hneg := neg_at_partitionPoint hy
    rw [decide_eq_false_iff_not, not_lt] at hneg
    rcases Nat.lt_or_eq_of_le (Nat.not_lt.mp hge) with hlt' | heq
    · exact absurd (hlt.trans_le hneg) (lt_asymm (h.getElem?_lt hlt' hy hx))
    · rw [← heq, hy] at hx
      rw [Option.some.inj hx] at hneg
      exact absurd hlt (not_lt.mpr hneg)
  · intro hi
    exact of_decide_eq_true (pos_of_lt_partitionPoint (p := fun y => decide (key y < k)) hi hx)

theorem binarySearch_ok {k : κ} {i : ℕ} (h : binarySearch key k l = .ok i) :
    ∃ x, l[i]? = some x ∧ key x = k := by
  unfold binarySearch at h
  simp only at h
  split at h
  · next x hx =>
    split at h
    · next hk =>
      obtain rfl := Except.ok.inj h
      exact ⟨x, hx, hk⟩
    · cases h
  · cases h

/-- No element has the key, and its place is between the smaller and the larger ones. -/
theorem binarySearch_error {k : κ} {i : ℕ} (hs : Ascending key l)
    (h : binarySearch key k l = .error i) :
    (∀ x ∈ l.take i, key x < k) ∧ ∀ x ∈ l.drop i, k < key x := by
  have hi : i = partitionPoint (fun y => key y < k) l ∧
      ∀ x, l[partitionPoint (fun y => decide (key y < k)) l]? = some x → key x ≠ k := by
    unfold binarySearch at h
    simp only at h
    split at h
    · next x hx =>
      split at h
      · cases h
      · next hk =>
        refine ⟨(Except.error.inj h).symm, fun y hy => ?_⟩
        rw [← Option.some.inj (hx.symm.trans hy)]
        exact hk
    · next hx =>
      refine ⟨(Except.error.inj h).symm, fun y hy => ?_⟩
      rw [hx] at hy
      cases hy
  obtain ⟨rfl, hne⟩ := hi
  refine ⟨fun x hx => ?_, fun x hx => ?_⟩
  · rw [take_partitionPoint] at hx
    exact of_decide_eq_true (mem_takeWhile_imp (p := fun y => decide (key y < k)) hx)
  · obtain ⟨j, hj⟩ := mem_iff_getElem?.mp hx
    rw [getElem?_drop] at hj
    have hnot : ¬ key x < k := by
      rw [hs.at_partitionPoint k hj]
      omega
    refine lt_of_le_of_ne (not_lt.mp hnot) fun heq => ?_
    cases j with
    | zero => exact hne x hj heq.symm
    | succ j =>
      have hlen := (List.getElem?_eq_some_iff.mp hj).1
      have hy := List.getElem?_eq_getElem
        (show partitionPoint (fun y => decide (key y < k)) l < l.length by omega)
      have hlt := hs.getElem?_lt (Nat.lt_add_of_pos_right (Nat.succ_pos j)) hy hj
      have hnot' := (hs.at_partitionPoint k hy).not.mpr (Nat.lt_irrefl _)
      rw [← heq] at hlt
      exact hnot' hlt

/-- Insertion adds the element and keeps the order. -/
theorem insertKey_spec (hkey : Function.Injective key) (h : Ascending key l) (a : α) :
    Ascending key (insertKey key a l) ∧ ∀ x, x ∈ insertKey key a l ↔ x = a ∨ x ∈ l := by
  have happend : ∀ x, x ∈ l ++ [a] ↔ x = a ∨ x ∈ l := by
    intro x
    rw [mem_append, mem_singleton]
    exact or_comm
  unfold insertKey
  cases hlast : l.getLast? with
  | none =>
    rw [getLast?_eq_none_iff] at hlast
    subst hlast
    exact ⟨pairwise_singleton _ _, happend⟩
  | some last =>
    simp only
    by_cases hlt : key last < key a
    · rw [if_pos hlt]
      exact ⟨ascending_append h fun x hx => (h.le_getLast hlast hx).trans_lt hlt, happend⟩
    · rw [if_neg hlt]
      cases hsearch : binarySearch key (key a) l with
      | ok i =>
        obtain ⟨x, hx, hxa⟩ := binarySearch_ok hsearch
        obtain rfl := hkey hxa
        refine ⟨h, fun y => ⟨.inr, ?_⟩⟩
        rintro (rfl | hy)
        · exact mem_of_getElem? hx
        · exact hy
      | error i =>
        obtain ⟨hbelow, habove⟩ := binarySearch_error h hsearch
        simp only
        constructor
        · refine pairwise_append.mpr ⟨h.sublist (take_sublist _ _), ?_, ?_⟩
          · exact pairwise_cons.mpr ⟨habove, h.sublist (drop_sublist _ _)⟩
          · intro x hx y hy
            rcases mem_cons.mp hy with rfl | hy
            · exact hbelow x hx
            · exact (hbelow x hx).trans (habove y hy)
        · intro x
          rw [mem_append, mem_cons, or_left_comm, ← mem_append,
            take_append_drop]

end Insert

section Normalize

variable [DecidableEq α] {key : α → κ} {l : List α}

/-- Of a sorted list, what is left without repeats is strictly sorted. -/
theorem ascending_destutter (hkey : Function.Injective key)
    (h : l.Pairwise fun a b => key a ≤ key b) :
    Ascending key (l.destutter (· ≠ ·)) ∧ ∀ x, x ∈ l.destutter (· ≠ ·) ↔ x ∈ l := by
  have hrun : ∀ (l : List α) (a : α), ((a :: l).Pairwise fun a b => key a ≤ key b) →
      Ascending key (l.destutter' (· ≠ ·) a) ∧ ∀ x, x ∈ l.destutter' (· ≠ ·) a ↔ x ∈ a :: l := by
    intro l
    induction l with
    | nil => exact fun a _ => ⟨pairwise_singleton _ _, fun x => .rfl⟩
    | cons b l ih =>
      intro a ha
      obtain ⟨hab, hb⟩ := pairwise_cons.mp ha
      by_cases heq : a = b
      · subst heq
        rw [destutter'_cons_neg _ (by simp)]
        obtain ⟨hasc, hmem⟩ := ih a hb
        refine ⟨hasc, fun x => (hmem x).trans ?_⟩
        simp
      · rw [destutter'_cons_pos _ heq]
        obtain ⟨hasc, hmem⟩ := ih b hb
        refine ⟨pairwise_cons.mpr ⟨fun x hx => ?_, hasc⟩, fun x => ?_⟩
        · have hxb : key b ≤ key x := by
            rcases mem_cons.mp ((hmem x).mp hx) with rfl | hx
            · exact le_refl _
            · exact (pairwise_cons.mp hb).1 x hx
          refine lt_of_lt_of_le (lt_of_le_of_ne (hab b mem_cons_self) ?_) hxb
          exact fun hk => heq (hkey hk)
        · rw [mem_cons, hmem, mem_cons (l := b :: l)]
  cases l with
  | nil => exact ⟨List.Pairwise.nil, fun x => .rfl⟩
  | cons a l => exact hrun l a h

theorem normalize_spec (hkey : Function.Injective key) (l : List α) :
    Ascending key (normalize key l) ∧ ∀ x, x ∈ normalize key l ↔ x ∈ l := by
  unfold normalize
  split
  · next h => exact ⟨isSorted_iff.mp h, fun x => .rfl⟩
  · have hsorted : (l.mergeSort fun a b => key a ≤ key b).Pairwise fun a b => key a ≤ key b := by
      have htrans : ∀ a b c : α, decide (key a ≤ key b) = true → decide (key b ≤ key c) = true →
          decide (key a ≤ key c) = true := by
        intro a b c hab hbc
        rw [decide_eq_true_eq] at hab hbc ⊢
        exact hab.trans hbc
      have htotal : ∀ a b : α, (decide (key a ≤ key b) || decide (key b ≤ key a)) = true := by
        intro a b
        rw [Bool.or_eq_true, decide_eq_true_eq, decide_eq_true_eq]
        exact le_total _ _
      exact (pairwise_mergeSort htrans htotal l).imp fun h => of_decide_eq_true h
    obtain ⟨hasc, hmem⟩ := ascending_destutter hkey hsorted
    exact ⟨hasc, fun x => (hmem x).trans mem_mergeSort⟩

end Normalize

end SortedKeys
