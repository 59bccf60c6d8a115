import Reargo.OrderedMap
import Reargo.PcodeModel

/-!
# Call snapshots folded together

The constants of a call are meant to be those that all its snapshots agree on. The map keeps an
empty register map both for a call that has not been met and for one whose snapshots agree on
nothing, so a snapshot that arrives behind such a row of them starts anew.
-/
namespace CallSnapshots

open PcodeModel OrderedMap List

/-- The constants that registers hold. -/
abbrev Regs := OrdMap U64 U64

abbrev CallConstants := OrdMap U64 Regs

/-- Calls with the registers known at each, one for each visit. -/
abbrev Snapshots := List (U64 × Regs)

def merge_entry (entry regs : Regs) : Regs :=
  if entry.entries = [] then regs else entry.filter fun k v => regs.get? k == some v

def merge_snapshots (out : CallConstants) (snaps : Snapshots) : CallConstants :=
  snaps.foldl (fun out s => out.insert s.1 (merge_entry ((out.get? s.1).getD .empty) s.2)) out

/-- Several lists of snapshots, one folded in after the other. -/
def merge_all (groups : List Snapshots) : CallConstants := groups.foldl merge_snapshots .empty

structure Intersects (snaps : Snapshots) (m : CallConstants) : Prop where
  calls : ∀ a, (m.get? a).isSome ↔ ∃ s ∈ snaps, s.1 = a
  lists : ∀ a regs, m.get? a = some regs → ∀ r v, regs.get? r = some v ↔
    ∀ s ∈ snaps, s.1 = a → s.2.get? r = some v

/-- Every order and every grouping of the snapshots gives their intersection. -/
def MergesAlike (snaps : Snapshots) : Prop :=
  ∀ groups : List Snapshots, groups.flatten.Perm snaps → Intersects snaps (merge_all groups)

def snapshots_at (a : U64) (snaps : Snapshots) : List Regs :=
  (snaps.filter fun s => s.1 = a).map Prod.snd

/-- Some register has one value in all of them. -/
def Agree (row : List Regs) : Prop := ∃ r v, ∀ m ∈ row, m.get? r = some v

/-- Consecutive groups, each of which agrees on nothing, though it does without its last. -/
inductive Spent : List Regs → Prop
  | nil : Spent []
  | group {before row : List Regs} {last : Regs} : Spent before → row = [] ∨ Agree row →
      ¬ Agree (row ++ [last]) → Spent (before ++ (row ++ [last]))

/-- No call has snapshots that can be put in an order where some agree on something behind
groups that do not. -/
def NeverSpent (snaps : Snapshots) : Prop :=
  ∀ a before row, (before ++ row).Perm (snapshots_at a snaps) → before ≠ [] → row ≠ [] →
    Spent before → ¬ Agree row

section Row

variable {row before : List Regs} {m : Regs} {r v : U64}

def merge_row (row : List Regs) : Regs := row.foldl merge_entry .empty

theorem merge_row_snoc (row : List Regs) (m : Regs) :
    merge_row (row ++ [m]) = merge_entry (merge_row row) m := by
  rw [merge_row, foldl_append]
  rfl

theorem entries_eq_nil (h : ∀ r v, m.get? r ≠ some v) : m.entries = [] := by
  apply eq_nil_iff_forall_not_mem.mpr
  rintro ⟨r, v⟩ he
  exact h r v (OrdMap.get?_eq_some_iff.mpr he)

theorem get?_of_entries_nil (h : m.entries = []) (r v : U64) : m.get? r ≠ some v := by
  intro hr
  have he := OrdMap.get?_eq_some_iff.mp hr
  rw [h] at he
  exact not_mem_nil he

theorem get?_merge_entry {entry : Regs} (h : entry.get? r = some v) (m : Regs) (r' v' : U64) :
    (merge_entry entry m).get? r' = some v' ↔ entry.get? r' = some v' ∧ m.get? r' = some v' := by
  have listed : entry.entries ≠ [] := fun he => get?_of_entries_nil he r v h
  rw [merge_entry, if_neg listed, OrdMap.get?_filter, Option.filter_eq_some_iff, beq_iff_eq]

theorem merge_row_behind (h : (merge_row row).entries = []) (m : Regs) :
    merge_row (row ++ [m]) = m := by
  rw [merge_row_snoc, merge_entry, if_pos h]

theorem agree_single (h : m.get? r = some v) : Agree [m] :=
  ⟨r, v, fun _ hx => mem_singleton.mp hx ▸ h⟩

theorem Agree.dropLast (h : Agree (row ++ [m])) : Agree row :=
  let ⟨r, v, hrv⟩ := h
  ⟨r, v, fun x hx => hrv x (mem_append_left _ hx)⟩

theorem lists_behind (h : (merge_row before).entries = []) (nonempty : row ≠ [])
    (agree : Agree row) (r v : U64) :
    (merge_row (before ++ row)).get? r = some v ↔ ∀ m ∈ row, m.get? r = some v := by
  induction row using List.reverseRecOn generalizing r v with
  | nil => exact absurd rfl nonempty
  | append_singleton row m ih =>
    rw [← append_assoc]
    by_cases first : row = []
    · rw [first, append_nil, merge_row_behind h, nil_append, forall_mem_singleton]
    · have listed := ih first agree.dropLast
      obtain ⟨r', v', held⟩ := agree.dropLast
      rw [merge_row_snoc, get?_merge_entry ((listed r' v').mpr held), listed r v,
        forall_mem_append, forall_mem_singleton]

theorem Spent.lists_nothing (h : Spent before) : (merge_row before).entries = [] := by
  induction h with
  | nil => rfl
  | @group before row last _ agree not ih =>
    apply entries_eq_nil
    intro r v listed
    rw [← append_assoc] at listed
    by_cases first : row = []
    · rw [first, append_nil, merge_row_behind ih] at listed
      rw [first] at not
      exact not (agree_single listed)
    · have held := agree.resolve_left first
      have before := lists_behind ih first held
      obtain ⟨r', v', hrv⟩ := held
      rw [merge_row_snoc, get?_merge_entry ((before r' v').mpr hrv), before r v] at listed
      exact not ⟨r, v, forall_mem_append.mpr
        ⟨listed.1, forall_mem_singleton.mpr listed.2⟩⟩

theorem spent_or_agrees (row : List Regs) : Spent row ∨
    ∃ before group, row = before ++ group ∧ Spent before ∧ group ≠ [] ∧ Agree group := by
  induction row using List.reverseRecOn with
  | nil => exact .inl .nil
  | append_singleton row m ih =>
    rcases ih with spent | ⟨before, group, rfl, spent, -, agree⟩
    · by_cases alone : Agree [m]
      · exact .inr ⟨row, [m], rfl, spent, cons_ne_nil _ _, alone⟩
      · exact .inl (.group spent (.inl rfl) alone)
    · by_cases more : Agree (group ++ [m])
      · exact .inr ⟨before, group ++ [m], append_assoc _ _ _, spent,
          append_ne_nil_of_right_ne_nil _ (cons_ne_nil _ _), more⟩
      · rw [append_assoc]
        exact .inl (.group spent (.inr agree) more)

theorem Spent.not_agree (h : Spent row) (nonempty : row ≠ []) : ¬ Agree row := by
  cases h with
  | nil => exact absurd rfl nonempty
  | group _ _ not =>
    rintro ⟨r, v, hrv⟩
    exact not ⟨r, v, fun m hm => hrv m (mem_append_right _ hm)⟩

theorem merge_row_iff (nonempty : row ≠ [])
    (never : ∀ before group, row = before ++ group → before ≠ [] → group ≠ [] → Spent before →
      ¬ Agree group) (r v : U64) :
    (merge_row row).get? r = some v ↔ ∀ m ∈ row, m.get? r = some v := by
  rcases spent_or_agrees row with spent | ⟨before, group, rfl, spent, behind, agree⟩
  · constructor
    · exact fun h => absurd h (get?_of_entries_nil spent.lists_nothing r v)
    · exact fun h => absurd ⟨r, v, h⟩ (spent.not_agree nonempty)
  · by_cases first : before = []
    · subst first
      exact lists_behind rfl behind agree r v
    · exact absurd agree (never before group rfl first behind spent)

end Row

theorem merge_snapshots_snoc (out : CallConstants) (snaps : Snapshots) (s : U64 × Regs) :
    merge_snapshots out (snaps ++ [s]) = (merge_snapshots out snaps).insert s.1
      (merge_entry (((merge_snapshots out snaps).get? s.1).getD .empty) s.2) := by
  rw [merge_snapshots, foldl_append]
  rfl

theorem merge_all_eq (groups : List Snapshots) :
    merge_all groups = merge_snapshots .empty groups.flatten := by
  rw [merge_all, merge_snapshots, foldl_flatten]
  rfl

/-- Each call is folded on its own. -/
theorem get?_merge_snapshots (snaps : Snapshots) (a : U64) :
    (merge_snapshots .empty snaps).get? a =
      if snapshots_at a snaps = [] then none else some (merge_row (snapshots_at a snaps)) := by
  induction snaps using List.reverseRecOn with
  | nil => rfl
  | append_singleton snaps s ih =>
    have split : snapshots_at a (snaps ++ [s]) =
        snapshots_at a snaps ++ if s.1 = a then [s.2] else [] := by
      rw [snapshots_at, filter_append, map_append, filter_singleton]
      split <;> simp_all [snapshots_at]
    rw [merge_snapshots_snoc, OrdMap.get?_insert, split]
    by_cases h : s.1 = a
    · subst h
      rw [if_pos rfl, if_pos rfl, if_neg (append_ne_nil_of_right_ne_nil _ (cons_ne_nil _ _)),
        merge_row_snoc, ih]
      split
      · rename_i unmet
        rw [unmet]
        rfl
      · rfl
    · rw [if_neg (Ne.symm h), if_neg h, append_nil, ih]

variable {snaps : Snapshots} {a : U64}

theorem snapshots_at_ne_nil : snapshots_at a snaps ≠ [] ↔ ∃ s ∈ snaps, s.1 = a := by
  simp only [snapshots_at, ne_eq, map_eq_nil_iff, filter_eq_nil_iff, decide_eq_true_eq,
    not_forall, not_not, exists_prop]

theorem forall_snapshots_at {P : Regs → Prop} :
    (∀ m ∈ snapshots_at a snaps, P m) ↔ ∀ s ∈ snaps, s.1 = a → P s.2 := by
  simp only [snapshots_at, forall_mem_map, mem_filter, decide_eq_true_eq, and_imp]

theorem snapshots_at_perm {snaps' : Snapshots} (h : snaps.Perm snaps') :
    (snapshots_at a snaps).Perm (snapshots_at a snaps') := (h.filter _).map _

theorem snapshots_at_append (a : U64) (snaps snaps' : Snapshots) :
    snapshots_at a (snaps ++ snaps') = snapshots_at a snaps ++ snapshots_at a snaps' := by
  rw [snapshots_at, filter_append, map_append]
  rfl

theorem snapshots_at_own (a : U64) (row : List Regs) : snapshots_at a (row.map (a, ·)) = row := by
  induction row with
  | nil => rfl
  | cons m row ih =>
    have first : snapshots_at a ((a, m) :: row.map (a, ·)) = m :: snapshots_at a (row.map (a, ·)) := by
      rw [snapshots_at, filter_cons_of_pos (by simp)]
      rfl
    rw [map_cons, first, ih]

theorem own_snapshots (a : U64) (snaps : Snapshots) :
    (snapshots_at a snaps).map (a, ·) = snaps.filter fun s => s.1 = a := by
  rw [snapshots_at, map_map, map_congr_left, map_id]
  intro s hs
  rw [← of_decide_eq_true (mem_filter.mp hs).2]
  rfl

theorem exists_order {row : List Regs} (h : row.Perm (snapshots_at a snaps)) :
    ∃ order : Snapshots, order.Perm snaps ∧ snapshots_at a order = row := by
  refine ⟨row.map (a, ·) ++ snaps.filter fun s => !decide (s.1 = a), ?_, ?_⟩
  · refine ((h.map (a, ·)).append_right _).trans ?_
    rw [own_snapshots]
    exact filter_append_perm _ snaps
  · have others : snapshots_at a (snaps.filter fun s => !decide (s.1 = a)) = [] := by
      rw [snapshots_at, map_eq_nil_iff, filter_eq_nil_iff]
      intro s hs own
      have other := (mem_filter.mp hs).2
      rw [own] at other
      cases other
    rw [snapshots_at_append, snapshots_at_own, others, append_nil]

theorem intersects_of_neverSpent {order : Snapshots} (h : NeverSpent snaps)
    (hperm : order.Perm snaps) : Intersects snaps (merge_snapshots .empty order) where
  calls a := by
    have own := snapshots_at_perm (a := a) hperm
    rw [get?_merge_snapshots, ← snapshots_at_ne_nil]
    split
    · rename_i unmet
      rw [unmet] at own
      exact iff_of_false nofun (not_not_intro own.nil_eq.symm)
    · rename_i met
      refine iff_of_true rfl fun unmet => met ?_
      rw [unmet] at own
      exact own.eq_nil
  lists a regs hregs r v := by
    rw [get?_merge_snapshots] at hregs
    split at hregs
    · cases hregs
    · rename_i met
      cases hregs
      have own := snapshots_at_perm (a := a) hperm
      rw [merge_row_iff met, ← forall_snapshots_at (P := fun m => m.get? r = some v)]
      · exact forall_congr' fun m => by rw [own.mem_iff]
      · intro before group hrow first behind spent
        exact h a before group (hrow ▸ own) first behind spent

/-- The map is the intersection, in every order and grouping, exactly if no call's snapshots can
be put in an order where some agree behind groups that do not. -/
theorem mergesAlike_iff (snaps : Snapshots) : MergesAlike snaps ↔ NeverSpent snaps := by
  constructor
  · rintro h a before row hperm first behind spent ⟨r, v, agree⟩
    obtain ⟨order, horder, hrow⟩ := exists_order hperm
    have merged := h [order] (by rwa [flatten_singleton])
    rw [merge_all_eq, flatten_singleton] at merged
    have met : before ++ row ≠ [] := append_ne_nil_of_left_ne_nil first _
    have held := get?_merge_snapshots order a
    rw [hrow, if_neg met] at held
    have listed := (lists_behind spent.lists_nothing behind ⟨r, v, agree⟩ r v).mpr agree
    have all := (merged.lists a _ held r v).mp listed
    rw [← forall_snapshots_at (P := fun m => m.get? r = some v)] at all
    exact spent.not_agree first
      ⟨r, v, fun m hm => all m (hperm.subset (mem_append_left _ hm))⟩
  · intro h groups hperm
    rw [merge_all_eq]
    exact intersects_of_neverSpent h hperm

def rdi (v : U64) : Regs := (OrdMap.empty : Regs).insert 0x38 v

theorem third_snapshot_stands :
    ¬ MergesAlike [(0x1000, rdi 1), (0x1000, rdi 2), (0x1000, rdi 3)] := by
  intro h
  have merged := (h [[(0x1000, rdi 1), (0x1000, rdi 2), (0x1000, rdi 3)]] (.refl _)).lists
    0x1000 (rdi 3) (by rfl) 0x38 3
  exact absurd (merged.mp rfl (0x1000, rdi 1) mem_cons_self rfl) (by decide)

end CallSnapshots
