import Mathlib.Tactic
import Mathlib.Data.BitVec

/-!
# Ordered finite maps

A map as its association list in strictly increasing key order, the way an
ordered tree map iterates. Lookup and insertion are the only operations; the
order is a field, so an ill-formed map cannot be built.
-/
namespace OrderedMap

open List

/-- Unsigned order on bit vectors, the order of machine words. -/
instance bitVecLinearOrder (w : ℕ) : LinearOrder (BitVec w) where
  le_refl x := Nat.le_refl x.toNat
  le_trans x y z := Nat.le_trans (n := x.toNat) (m := y.toNat) (k := z.toNat)
  lt_iff_le_not_ge x y := by simp only [BitVec.lt_def, BitVec.le_def]; omega
  le_antisymm x y h k := BitVec.eq_of_toNat_eq (Nat.le_antisymm h k)
  le_total x y := Nat.le_total x.toNat y.toNat
  toDecidableLE := inferInstance

variable {κ : Type*} {α : Type*} [LinearOrder κ]

def lookup (k : κ) : List (κ × α) → Option α
  | [] => none
  | (k', v) :: rest => if k = k' then some v else lookup k rest

def insertEntry (k : κ) (v : α) : List (κ × α) → List (κ × α)
  | [] => [(k, v)]
  | (k', v') :: rest =>
    if k < k' then (k, v) :: (k', v') :: rest
    else if k = k' then (k, v) :: rest
    else (k', v') :: insertEntry k v rest

variable {es : List (κ × α)} {k : κ} {v : α}

theorem mem_of_lookup (h : lookup k es = some v) : (k, v) ∈ es := by
  induction es with
  | nil => simp [lookup] at h
  | cons e es ih =>
    simp only [lookup] at h
    split at h
    · next heq =>
      simp only [Option.some.injEq] at h
      simp [heq, ← h]
    · exact mem_cons_of_mem _ (ih h)

theorem lookup_insertEntry (k k' : κ) (v : α) (es : List (κ × α)) :
    lookup k' (insertEntry k v es) = if k' = k then some v else lookup k' es := by
  induction es with
  | nil => simp [insertEntry, lookup]
  | cons e es ih =>
    obtain ⟨k₀, v₀⟩ := e
    unfold insertEntry
    by_cases hlt : k < k₀
    · simp [hlt, lookup]
    · by_cases heq : k = k₀
      · subst heq
        by_cases hk : k' = k <;> simp [lookup, hk]
      · simp only [hlt, heq, if_false, lookup, ih]
        by_cases hk : k' = k₀
        · subst hk
          simp [Ne.symm heq]
        · simp [hk]

theorem mem_keys_insertEntry {x : κ}
    (h : x ∈ (insertEntry k v es).map Prod.fst) : x = k ∨ x ∈ es.map Prod.fst := by
  induction es with
  | nil => simpa [insertEntry] using h
  | cons e es ih =>
    obtain ⟨k₀, v₀⟩ := e
    unfold insertEntry at h
    split at h
    · simpa using h
    · split at h
      · next heq =>
        subst heq
        simp only [map_cons, mem_cons] at h ⊢
        tauto
      · simp only [map_cons, mem_cons] at h ⊢
        rcases h with h | h
        · exact .inr (.inl h)
        · exact (ih h).imp_right .inr

theorem insertEntry_sorted (h : (es.map Prod.fst).Pairwise (· < ·)) :
    ((insertEntry k v es).map Prod.fst).Pairwise (· < ·) := by
  induction es with
  | nil => simp [insertEntry]
  | cons e es ih =>
    obtain ⟨k₀, v₀⟩ := e
    simp only [map_cons, pairwise_cons] at h
    unfold insertEntry
    split
    · next hlt =>
      simp only [map_cons, pairwise_cons, mem_cons]
      refine ⟨?_, h⟩
      rintro x (rfl | hx)
      · exact hlt
      · exact lt_trans hlt (h.1 x hx)
    · split
      · next heq =>
        subst heq
        simpa only [map_cons, pairwise_cons] using h
      · next hlt heq =>
        simp only [map_cons, pairwise_cons]
        refine ⟨fun x hx => ?_, ih h.2⟩
        rcases mem_keys_insertEntry hx with rfl | hx
        · exact lt_of_le_of_ne (not_lt.mp hlt) (Ne.symm heq)
        · exact h.1 x hx

theorem insertEntry_last (h : ∀ x ∈ es.map Prod.fst, x < k) : insertEntry k v es = es ++ [(k, v)] := by
  induction es with
  | nil => rfl
  | cons e es ih =>
    have hlt : e.1 < k := h _ mem_cons_self
    rw [insertEntry, if_neg hlt.not_gt, if_neg hlt.ne', ih fun x hx => h x (mem_cons_of_mem _ hx),
      cons_append]

theorem values_insertEntry_fresh (h : lookup k es = none) :
    ((insertEntry k v es).map Prod.snd).Perm (v :: es.map Prod.snd) := by
  induction es with
  | nil => simp [insertEntry]
  | cons e es ih =>
    obtain ⟨k₀, v₀⟩ := e
    simp only [lookup] at h
    split at h
    · simp at h
    · next hne =>
      unfold insertEntry
      split
      · simp
      · simp only [map_cons]
        exact ((ih h).cons v₀).trans (List.Perm.swap v v₀ _)

theorem values_insertEntry_replace {w : α}
    (hs : (es.map Prod.fst).Pairwise (· < ·)) (h : lookup k es = some w) :
    (w :: (insertEntry k v es).map Prod.snd).Perm (v :: es.map Prod.snd) := by
  induction es with
  | nil => simp [lookup] at h
  | cons e es ih =>
    obtain ⟨k₀, v₀⟩ := e
    simp only [map_cons, pairwise_cons] at hs
    simp only [lookup] at h
    by_cases heq : k = k₀
    · subst heq
      rw [if_pos rfl, Option.some.injEq] at h
      subst h
      simpa [insertEntry] using List.Perm.swap v v₀ _
    · rw [if_neg heq] at h
      have hk : k ∈ es.map Prod.fst :=
        mem_map.mpr ⟨(k, w), mem_of_lookup h, rfl⟩
      have hlt : ¬ k < k₀ := not_lt.mpr (le_of_lt (hs.1 k hk))
      unfold insertEntry
      rw [if_neg hlt, if_neg heq]
      simp only [map_cons]
      calc (w :: v₀ :: (insertEntry k v es).map Prod.snd)
          |>.Perm (v₀ :: w :: (insertEntry k v es).map Prod.snd) := List.Perm.swap _ _ _
        _ |>.Perm (v₀ :: v :: es.map Prod.snd) := (ih hs.2 h).cons v₀
        _ |>.Perm (v :: v₀ :: es.map Prod.snd) := List.Perm.swap _ _ _

section Front

variable {β : Type*} {p : β → Bool} {l : List β}

/-- In ascending order what is below a bound stands in front. -/
theorem front_of_lt {f : β → κ} (h : l.Pairwise fun x y => f x ≤ f y)
    (hp : ∀ x, p x = true ↔ f x < k) : l.Pairwise fun x y => p y = true → p x = true :=
  h.imp fun hle hy => (hp _).mpr (hle.trans_lt ((hp _).mp hy))

variable (h : l.Pairwise fun x y => p y = true → p x = true)

include h

theorem takeWhile_eq_filter : l.takeWhile p = l.filter p := by
  induction l with
  | nil => rfl
  | cons x l ih =>
    obtain ⟨hx, hl⟩ := pairwise_cons.mp h
    by_cases hp : p x = true
    · rw [takeWhile_cons_of_pos hp, filter_cons_of_pos hp, ih hl]
    · rw [takeWhile_cons_of_neg hp, filter_cons_of_neg hp, eq_comm,
        filter_eq_nil_iff]
      exact fun y hy hpy => hp (hx y hy hpy)

theorem dropWhile_eq_filter : l.dropWhile p = l.filter fun x => !p x := by
  induction l with
  | nil => rfl
  | cons x l ih =>
    obtain ⟨hx, hl⟩ := pairwise_cons.mp h
    by_cases hp : p x = true
    · rw [dropWhile_cons_of_pos hp, filter_cons_of_neg (by simp [hp]), ih hl]
    · rw [dropWhile_cons_of_neg hp, eq_comm, filter_eq_self]
      exact forall_mem_cons.mpr ⟨by simpa using hp, fun y hy => by
        simpa using fun hpy => hp (hx y hy hpy)⟩

/-- Nothing behind the first failure satisfies `p`. -/
theorem dropWhile_false : ∀ x ∈ l.dropWhile p, p x = false := by
  rw [dropWhile_eq_filter h]
  exact fun x hx => by simpa using (mem_filter.mp hx).2

end Front

section Entries

variable {k : κ} {v : α} {es es' : List (κ × α)}

theorem lookup_eq_some_iff (h : (es.map Prod.fst).Nodup) : lookup k es = some v ↔ (k, v) ∈ es := by
  refine ⟨mem_of_lookup, fun hmem => ?_⟩
  induction es with
  | nil => cases hmem
  | cons e es ih =>
    rw [map_cons, nodup_cons] at h
    unfold lookup
    rcases mem_cons.mp hmem with heq | hmem
    · subst heq
      exact if_pos rfl
    · have hne : k ≠ e.1 := by
        rintro rfl
        exact h.1 (mem_map.mpr ⟨(e.1, v), hmem, rfl⟩)
      rw [if_neg hne]
      exact ih h.2 hmem

theorem lookup_eq_none_iff : lookup k es = none ↔ k ∉ es.map Prod.fst := by
  induction es with
  | nil => simp [lookup]
  | cons e es ih =>
    unfold lookup
    by_cases hk : k = e.1
    · simp [hk]
    · rw [if_neg hk, ih, map_cons, mem_cons, not_or]
      exact ⟨fun h => ⟨hk, h⟩, And.right⟩

theorem lookup_of_forall_ne (h : ∀ e ∈ es, e.1 ≠ k) : lookup k es = none := by
  rw [lookup_eq_none_iff]
  intro hmem
  obtain ⟨e, he, heq⟩ := mem_map.mp hmem
  exact h e he heq

theorem lookup_append (k : κ) (es es' : List (κ × α)) :
    lookup k (es ++ es') = (lookup k es).or (lookup k es') := by
  induction es with
  | nil => rfl
  | cons e es ih =>
    rw [cons_append, lookup, lookup, ih]
    split <;> rfl

theorem perm_of_lookup_eq (h : (es.map Prod.fst).Nodup) (h' : (es'.map Prod.fst).Nodup)
    (heq : ∀ k, lookup k es = lookup k es') : es.Perm es' := by
  refine (perm_ext_iff_of_nodup (List.Nodup.of_map _ h) (List.Nodup.of_map _ h')).mpr ?_
  rintro ⟨k, v⟩
  rw [← lookup_eq_some_iff h, ← lookup_eq_some_iff h', heq]

theorem lookup_perm (h : (es.map Prod.fst).Nodup) (hperm : es.Perm es') (k : κ) :
    lookup k es = lookup k es' := by
  have h' : (es'.map Prod.fst).Nodup := (hperm.map Prod.fst).nodup_iff.mp h
  refine Option.ext fun v => ?_
  rw [lookup_eq_some_iff h, lookup_eq_some_iff h', hperm.mem_iff]

theorem eq_of_lookup_eq (h : (es.map Prod.fst).Pairwise (· < ·))
    (h' : (es'.map Prod.fst).Pairwise (· < ·)) (heq : ∀ k, lookup k es = lookup k es') :
    es = es' := by
  have hperm := perm_of_lookup_eq (h.imp fun h => ne_of_lt h) (h'.imp fun h => ne_of_lt h) heq
  refine hperm.eq_of_pairwise ?_ (pairwise_map.mp h)
    (pairwise_map.mp h')
  exact fun a b _ _ hab hba => absurd hba (lt_asymm hab)

theorem lookup_map_key {κ' : Type*} [LinearOrder κ'] (f : κ → κ')
    (hf : ∀ e ∈ es, f e.1 = f k → e.1 = k) :
    lookup (f k) (es.map fun e => (f e.1, e.2)) = lookup k es := by
  induction es with
  | nil => rfl
  | cons e es ih =>
    have hrest := ih fun e' he' => hf e' (mem_cons_of_mem _ he')
    simp only [map_cons, lookup]
    by_cases hk : k = e.1
    · rw [if_pos hk, if_pos (congrArg f hk)]
    · have hne : f k ≠ f e.1 := fun h => hk (hf e mem_cons_self h.symm).symm
      rw [if_neg hk, if_neg hne, hrest]

theorem insertEntry_map_key {κ' : Type*} [LinearOrder κ'] (f : κ → κ')
    (hf : ∀ e ∈ es, (k < e.1 ↔ f k < f e.1) ∧ (k = e.1 ↔ f k = f e.1)) (v : α) :
    insertEntry (f k) v (es.map fun e => (f e.1, e.2)) =
      (insertEntry k v es).map fun e => (f e.1, e.2) := by
  induction es with
  | nil => rfl
  | cons e es ih =>
    have hrest := ih fun e' he' => hf e' (mem_cons_of_mem _ he')
    obtain ⟨hlt, heq⟩ := hf e mem_cons_self
    simp only [map_cons, insertEntry]
    by_cases h₁ : k < e.1
    · rw [if_pos h₁, if_pos (hlt.mp h₁)]
      rfl
    · rw [if_neg h₁, if_neg fun h => h₁ (hlt.mpr h)]
      by_cases h₂ : k = e.1
      · rw [if_pos h₂, if_pos (heq.mp h₂)]
        rfl
      · rw [if_neg h₂, if_neg fun h => h₂ (heq.mpr h), hrest]
        rfl

end Entries

/-- A finite map with its entries in strictly increasing key order. -/
structure OrdMap (κ : Type*) (α : Type*) [LinearOrder κ] where
  entries : List (κ × α)
  sorted : (entries.map Prod.fst).Pairwise (· < ·)

namespace OrdMap

def empty : OrdMap κ α := ⟨[], by simp⟩

def get? (m : OrdMap κ α) (k : κ) : Option α := lookup k m.entries

def insert (m : OrdMap κ α) (k : κ) (v : α) : OrdMap κ α :=
  ⟨insertEntry k v m.entries, insertEntry_sorted m.sorted⟩

def values (m : OrdMap κ α) : List α := m.entries.map Prod.snd

@[simp] theorem get?_empty (k : κ) : (empty : OrdMap κ α).get? k = none := rfl

@[simp] theorem values_empty : (empty : OrdMap κ α).values = [] := rfl

theorem get?_insert (m : OrdMap κ α) (k k' : κ) (v : α) :
    (m.insert k v).get? k' = if k' = k then some v else m.get? k' :=
  lookup_insertEntry k k' v m.entries

@[simp] theorem get?_insert_self (m : OrdMap κ α) (k : κ) (v : α) :
    (m.insert k v).get? k = some v := by simp [get?_insert]

variable {m : OrdMap κ α}

theorem values_insert_fresh (v : α) (h : m.get? k = none) :
    (m.insert k v).values.Perm (v :: m.values) :=
  values_insertEntry_fresh h

theorem values_insert_replace {w : α} (v : α)
    (h : m.get? k = some w) : (w :: (m.insert k v).values).Perm (v :: m.values) :=
  values_insertEntry_replace m.sorted h

theorem mem_values_of_get? (h : m.get? k = some v) : v ∈ m.values :=
  mem_map.mpr ⟨(k, v), mem_of_lookup h, rfl⟩

theorem get?_eq_some_iff : m.get? k = some v ↔ (k, v) ∈ m.entries :=
  lookup_eq_some_iff (m.sorted.imp fun h => ne_of_lt h)

theorem entries_foldl_insert (l : List (κ × α)) (m : OrdMap κ α)
    (h : ((m.entries ++ l).map Prod.fst).Pairwise (· < ·)) :
    (l.foldl (fun m e => m.insert e.1 e.2) m).entries = m.entries ++ l := by
  induction l generalizing m with
  | nil => exact (append_nil _).symm
  | cons e l ih =>
    have hlast : (m.insert e.1 e.2).entries = m.entries ++ [e] := by
      refine insertEntry_last fun x hx => ?_
      rw [map_append, pairwise_append] at h
      exact h.2.2 x hx e.1 mem_cons_self
    rw [foldl_cons, ih _ (by rwa [hlast, append_assoc]), hlast, append_assoc, singleton_append]

def filter (m : OrdMap κ α) (p : κ → α → Bool) : OrdMap κ α :=
  ⟨m.entries.filter fun e => p e.1 e.2, m.sorted.sublist (filter_sublist.map _)⟩

def mapValues {β : Type*} (m : OrdMap κ α) (f : α → β) : OrdMap κ β :=
  ⟨m.entries.map fun e => (e.1, f e.2), by
    simpa only [map_map, Function.comp_def] using m.sorted⟩

theorem get?_filter (m : OrdMap κ α) (p : κ → α → Bool) (k : κ) :
    (m.filter p).get? k = (m.get? k).filter (p k) := by
  apply Option.ext
  intro v
  simp only [get?_eq_some_iff, filter, mem_filter, Option.filter_eq_some_iff]

theorem get?_mapValues {β : Type*} (m : OrdMap κ α) (f : α → β) (k : κ) :
    (m.mapValues f).get? k = (m.get? k).map f := by
  apply Option.ext
  intro v
  simp only [get?_eq_some_iff, mapValues, mem_map, Prod.mk.injEq, Option.map_eq_some_iff]
  constructor
  · rintro ⟨e, he, rfl, rfl⟩
    exact ⟨e.2, he, rfl⟩
  · rintro ⟨w, hw, rfl⟩
    exact ⟨(k, w), hw, rfl, rfl⟩

end OrdMap

end OrderedMap
