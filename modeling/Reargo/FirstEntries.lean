import Reargo.OrderedMap
import Mathlib.Data.List.Destutter

/-!
# The first entry of each key

A list of entries in any order, of which the first of each key counts. It is put in
order by a stable sort, or by inserting each entry whose key is not there yet: both give
the sorted list that looks up as the list does.
-/
namespace FirstEntries

open OrderedMap Option
open List hiding lookup filter_filter lookup_append
open List (flatten_cons mem_cons mem_cons_self mem_flatten mem_map pairwise_cons)

variable {κ α : Type*} [LinearOrder κ]

/-- Strictly increasing keys. -/
def Increasing (es : List (κ × α)) : Prop := (es.map Prod.fst).Pairwise (· < ·)

/-- Sorted by key, of each key the first entry. -/
def firsts (es : List (κ × α)) : List (κ × α) :=
  (es.mergeSort fun a b => a.1 ≤ b.1).destutter fun a b => a.1 ≠ b.1

/-- `entry(k).or_insert(v)`. -/
def orInsert (m : OrdMap κ α) (e : κ × α) : OrdMap κ α :=
  if (m.get? e.1).isSome then m else m.insert e.1 e.2

def orInsertAll (m : OrdMap κ α) (es : List (κ × α)) : OrdMap κ α := es.foldl orInsert m

/-- A map of entries, the last of a key kept. -/
def collect (es : List (κ × α)) : OrdMap κ α := es.foldl (fun m e => m.insert e.1 e.2) .empty

section Stable

variable {es es' : List (κ × α)}

theorem lookup_eq_head_filter (k : κ) (es : List (κ × α)) :
    lookup k es = ((es.filter fun e => k = e.1).head?).map Prod.snd := by
  induction es with
  | nil => rfl
  | cons e es ih =>
    rw [lookup, filter_cons]
    by_cases hk : k = e.1
    · simp [hk]
    · simp [hk, ih]

theorem keyLe_trans (a b c : κ × α) (hab : decide (a.1 ≤ b.1) = true)
    (hbc : decide (b.1 ≤ c.1) = true) : decide (a.1 ≤ c.1) = true := by
  rw [decide_eq_true_eq] at hab hbc ⊢
  exact hab.trans hbc

theorem keyLe_total (a b : κ × α) : (decide (a.1 ≤ b.1) || decide (b.1 ≤ a.1)) = true := by
  rw [Bool.or_eq_true, decide_eq_true_eq, decide_eq_true_eq]
  exact le_total _ _

theorem filter_mergeSort (k : κ) (es : List (κ × α)) :
    (es.mergeSort fun a b => a.1 ≤ b.1).filter (fun e => k = e.1) =
      es.filter fun e => k = e.1 := by
  have hperm := (mergeSort_perm es fun a b => decide (a.1 ≤ b.1)).filter fun e => k = e.1
  have hsorted : (es.filter fun e => k = e.1).Pairwise fun a b => decide (a.1 ≤ b.1) = true := by
    refine pairwise_of_forall_mem_list fun a ha b hb => ?_
    have hka := of_decide_eq_true (mem_filter.mp ha).2
    have hkb := of_decide_eq_true (mem_filter.mp hb).2
    rw [decide_eq_true_eq, ← hka, ← hkb]
  have hsub := (sublist_mergeSort keyLe_trans keyLe_total hsorted
    filter_sublist).filter fun e => k = e.1
  rw [List.filter_filter] at hsub
  simp only [Bool.and_self] at hsub
  exact (hsub.eq_of_length hperm.length_eq.symm).symm

theorem lookup_mergeSort (k : κ) (es : List (κ × α)) :
    lookup k (es.mergeSort fun a b => a.1 ≤ b.1) = lookup k es := by
  rw [lookup_eq_head_filter, filter_mergeSort, ← lookup_eq_head_filter]

theorem lookup_destutter' (k : κ) (e : κ × α) (es : List (κ × α)) :
    lookup k (es.destutter' (fun a b => a.1 ≠ b.1) e) = lookup k (e :: es) := by
  induction es generalizing e with
  | nil => rfl
  | cons x es ih =>
    by_cases hx : e.1 = x.1
    · rw [destutter'_cons_neg _ (not_not_intro hx), ih, lookup, lookup, lookup, hx]
      split <;> rfl
    · rw [destutter'_cons_pos _ hx, lookup, ih]
      rfl

theorem lookup_firsts (k : κ) (es : List (κ × α)) : lookup k (firsts es) = lookup k es := by
  unfold firsts
  rw [← lookup_mergeSort k es]
  cases es.mergeSort fun a b => decide (a.1 ≤ b.1) with
  | nil => rfl
  | cons e es => exact lookup_destutter' k e es

theorem increasing_destutter' (e : κ × α) (es : List (κ × α))
    (h : (e :: es).Pairwise fun a b => a.1 ≤ b.1) :
    Increasing (es.destutter' (fun a b => a.1 ≠ b.1) e) ∧
      ∀ x ∈ es.destutter' (fun a b => a.1 ≠ b.1) e, e.1 ≤ x.1 := by
  induction es generalizing e with
  | nil =>
    refine ⟨pairwise_singleton _ _, fun x hx => ?_⟩
    rw [mem_singleton.mp hx]
  | cons y es ih =>
    obtain ⟨hle, hrest⟩ := pairwise_cons.mp h
    by_cases hy : e.1 = y.1
    · rw [destutter'_cons_neg _ (not_not_intro hy)]
      exact ih e (pairwise_cons.mpr
        ⟨fun x hx => hle x (mem_cons_of_mem _ hx), (pairwise_cons.mp hrest).2⟩)
    · rw [destutter'_cons_pos _ hy]
      obtain ⟨hinc, hge⟩ := ih y hrest
      have hlt : e.1 < y.1 := lt_of_le_of_ne (hle y mem_cons_self) hy
      refine ⟨pairwise_cons.mpr ⟨fun k hk => ?_, hinc⟩, fun x hx => ?_⟩
      · obtain ⟨x, hx, rfl⟩ := mem_map.mp hk
        exact hlt.trans_le (hge x hx)
      · rcases mem_cons.mp hx with rfl | hx
        · exact le_refl _
        · exact hlt.le.trans (hge x hx)

theorem increasing_firsts (es : List (κ × α)) : Increasing (firsts es) := by
  unfold firsts
  have hsorted : (es.mergeSort fun a b => a.1 ≤ b.1).Pairwise fun a b => a.1 ≤ b.1 :=
    (pairwise_mergeSort keyLe_trans keyLe_total es).imp fun h => of_decide_eq_true h
  cases hes : es.mergeSort fun a b => decide (a.1 ≤ b.1) with
  | nil => exact List.Pairwise.nil
  | cons e rest =>
    rw [hes] at hsorted
    exact (increasing_destutter' e rest hsorted).1

theorem firsts_eq (h : Increasing es') (hlookup : ∀ k, lookup k es' = lookup k es) :
    firsts es = es' :=
  eq_of_lookup_eq (increasing_firsts es) h fun k => by rw [lookup_firsts, hlookup]

theorem length_firsts_le (es : List (κ × α)) : (firsts es).length ≤ es.length := by
  unfold firsts
  have hlen : (es.mergeSort fun a b => decide (a.1 ≤ b.1)).length = es.length :=
    length_mergeSort es
  cases hs : es.mergeSort fun a b => decide (a.1 ≤ b.1) with
  | nil => exact Nat.zero_le _
  | cons e rest =>
    rw [← hlen, hs]
    exact (destutter'_sublist _ _ e).length_le

end Stable

variable {e : κ × α}

section Maps

variable {m : OrdMap κ α} {es : List (κ × α)}

theorem get?_orInsert (m : OrdMap κ α) (e : κ × α) (k : κ) :
    (orInsert m e).get? k = (m.get? k).or (lookup k [e]) := by
  unfold orInsert
  rw [lookup, lookup]
  split
  · next hsome =>
    by_cases hk : k = e.1
    · subst hk
      rw [or_of_isSome hsome]
    · rw [if_neg hk, or_none]
  · next hnone =>
    rw [OrdMap.get?_insert]
    by_cases hk : k = e.1
    · subst hk
      rw [if_pos rfl, if_pos rfl, not_isSome_iff_eq_none.mp hnone, none_or]
    · rw [if_neg hk, if_neg hk, or_none]

theorem get?_orInsertAll (m : OrdMap κ α) (es : List (κ × α)) (k : κ) :
    (orInsertAll m es).get? k = (m.get? k).or (lookup k es) := by
  unfold orInsertAll
  induction es generalizing m with
  | nil => exact (or_none).symm
  | cons e es ih =>
    rw [foldl_cons, ih, get?_orInsert, Option.or_assoc, ← lookup_append, singleton_append]

/-- Each entry put at its key, its value made from the value there. -/
def putAll (f : α → Option α → α) (m : OrdMap κ α) (es : List (κ × α)) : OrdMap κ α :=
  es.foldl (fun m e => m.insert e.1 (f e.2 (m.get? e.1))) m

theorem Increasing.of_concat (h : Increasing (es ++ [e])) :
    Increasing es ∧ ∀ x ∈ es, x.1 ≠ e.1 := by
  unfold Increasing at h
  rw [map_append, pairwise_append] at h
  exact ⟨h.1, fun x hx => ne_of_lt (h.2.2 x.1 (mem_map_of_mem hx) e.1 mem_cons_self)⟩

theorem lookup_concat (h : Increasing (es ++ [e])) (k : κ) :
    lookup k (es ++ [e]) = if k = e.1 then some e.2 else lookup k es := by
  rw [lookup_append, lookup]
  by_cases hk : k = e.1
  · subst hk
    rw [if_pos rfl, if_pos rfl, lookup_of_forall_ne h.of_concat.2, none_or]
  · rw [if_neg hk, if_neg hk, lookup, or_none]

theorem get?_putAll (f : α → Option α → α) (m : OrdMap κ α) (h : Increasing es) (k : κ) :
    (putAll f m es).get? k = (lookup k es).elim (m.get? k) fun v => some (f v (m.get? k)) := by
  induction es using List.reverseRecOn with
  | nil => rfl
  | append_singleton es e ih =>
    obtain ⟨hinc, hne⟩ := h.of_concat
    have hrest := ih hinc
    unfold putAll at hrest ⊢
    rw [foldl_append, foldl_cons, foldl_nil, OrdMap.get?_insert, lookup_concat h]
    by_cases hk : k = e.1
    · subst hk
      rw [lookup_of_forall_ne hne] at hrest
      rw [if_pos rfl, if_pos rfl, hrest]
      rfl
    · rw [if_neg hk, if_neg hk, hrest]

theorem entries_collect (h : Increasing es) : (collect es).entries = es := by
  refine eq_of_lookup_eq (collect es).sorted h fun k => ?_
  have hget := get?_putAll (fun v _ => v) .empty h k
  rw [OrdMap.get?_empty] at hget
  refine hget.trans ?_
  cases lookup k es <;> rfl

end Maps

/-- Lists of entries of ascending ranges: the first from `lo`, each other from its cut. -/
inductive CutAt : κ → List κ → List (List (κ × α)) → Prop
  | last {lo : κ} {es : List (κ × α)} (hlo : ∀ e ∈ es, lo ≤ e.1) : CutAt lo [] [es]
  | cons {lo cut : κ} {cuts : List κ} {es : List (κ × α)} {rest : List (List (κ × α))}
      (hle : lo ≤ cut) (hin : ∀ e ∈ es, lo ≤ e.1 ∧ e.1 < cut) (hrest : CutAt cut cuts rest) :
      CutAt lo (cut :: cuts) (es :: rest)

namespace CutAt

variable {lo : κ} {cuts : List κ} {parts parts' : List (List (κ × α))} {k : κ}

theorem low (h : CutAt lo cuts parts) : ∀ es ∈ parts, ∀ e ∈ es, lo ≤ e.1 := by
  induction h with
  | last hlo =>
    intro es hes
    rw [mem_singleton.mp hes]
    exact hlo
  | cons hle hin _ ih =>
    intro es hes
    rcases mem_cons.mp hes with rfl | hes
    · exact fun e he => (hin e he).1
    · exact fun e he => hle.trans (ih es hes e he)

theorem length_eq (h : CutAt lo cuts parts) : parts.length = cuts.length + 1 := by
  induction h with
  | last => rfl
  | cons _ _ _ ih => rw [length_cons, length_cons, ih]

theorem increasing (h : CutAt lo cuts parts) (hparts : ∀ es ∈ parts, Increasing es) :
    Increasing parts.flatten := by
  induction h with
  | last =>
    rw [flatten_singleton]
    exact hparts _ mem_cons_self
  | @cons lo cut cuts es rest hle hin hrest ih =>
    unfold Increasing
    rw [flatten_cons, map_append, pairwise_append]
    refine ⟨hparts es mem_cons_self,
      ih fun es' hes' => hparts es' (mem_cons_of_mem _ hes'), fun a ha b hb => ?_⟩
    obtain ⟨e, he, rfl⟩ := mem_map.mp ha
    obtain ⟨e', he', rfl⟩ := mem_map.mp hb
    obtain ⟨es', hes', he'⟩ := mem_flatten.mp he'
    exact (hin e he).2.trans_le (hrest.low es' hes' e' he')

/-- The position of the list that holds a key, if any does. -/
def indexOf (starts : List κ) (k : κ) : ℕ := (starts.takeWhile fun s => s ≤ k).length - 1

theorem split (h : CutAt lo cuts parts) (hk : lo ≤ k) :
    ∃ before es after, parts = before ++ es :: after ∧
      before.length = indexOf (lo :: cuts) k ∧
      (∀ es' ∈ before, ∀ e ∈ es', e.1 < k) ∧ ∀ es' ∈ after, ∀ e ∈ es', k < e.1 := by
  induction h with
  | @last lo es _ =>
    refine ⟨[], es, [], rfl, ?_, by simp, by simp⟩
    simp [indexOf, hk]
  | @cons lo cut cuts es rest hle hin hrest ih =>
    by_cases hcut : cut ≤ k
    · obtain ⟨before, es', after, rfl, hlen, hbefore, hafter⟩ := ih hcut
      refine ⟨es :: before, es', after, rfl, ?_, fun es'' hes'' => ?_, hafter⟩
      · unfold indexOf at hlen ⊢
        simp [hk, hcut] at hlen ⊢
        omega
      · rcases mem_cons.mp hes'' with rfl | hes''
        · exact fun e he => (hin e he).2.trans_le hcut
        · exact hbefore es'' hes''
    · refine ⟨[], es, rest, rfl, ?_, by simp, fun es' hes' e he => ?_⟩
      · simp [indexOf, hk, hcut]
      · exact (not_le.mp hcut).trans_le (hrest.low es' hes' e he)

theorem indexOf_cons (hk : lo ≤ k) :
    indexOf (lo :: cuts) k = (cuts.takeWhile fun s => s ≤ k).length := by
  simp [indexOf, hk]

theorem modify_spec (h : CutAt lo cuts parts) (hk : lo ≤ k) {f : List (κ × α) → List (κ × α)}
    (hkeys : ∀ es, ∀ e ∈ f es, e.1 = k ∨ e ∈ es)
    (hother : ∀ es k', k' ≠ k → lookup k' (f es) = lookup k' es) :
    CutAt lo cuts (parts.modify (indexOf (lo :: cuts) k) f) ∧
      (∀ k', k' ≠ k → lookup k' (parts.modify (indexOf (lo :: cuts) k) f).flatten =
        lookup k' parts.flatten) ∧
      ∃ es, parts[indexOf (lo :: cuts) k]? = some es ∧
        lookup k parts.flatten = lookup k es ∧
        lookup k (parts.modify (indexOf (lo :: cuts) k) f).flatten = lookup k (f es) := by
  rw [indexOf_cons hk]
  induction h with
  | @last lo es hlo =>
    refine ⟨.last fun e he => ?_, fun k' hk' => ?_, es, rfl, by simp, by simp⟩
    · rcases hkeys es e he with heq | he
      · rw [heq]
        exact hk
      · exact hlo e he
    · simpa using hother es k' hk'
  | @cons lo cut cuts es rest hle hin hrest ih =>
    by_cases hcut : cut ≤ k
    · obtain ⟨hcuts, hsame, es', hes', hlook, hnew⟩ := ih hcut
      have hnone : lookup k es = none :=
        lookup_of_forall_ne fun e he heq => absurd (heq ▸ (hin e he).2) (not_lt.mpr hcut)
      rw [takeWhile_cons, if_pos (decide_eq_true hcut), length_cons,
        modify_succ_cons]
      refine ⟨.cons hle hin hcuts, fun k' hk' => ?_, es', hes', ?_, ?_⟩
      · rw [flatten_cons, flatten_cons, lookup_append, lookup_append, hsame k' hk']
      · rw [flatten_cons, lookup_append, hnone, none_or, hlook]
      · rw [flatten_cons, lookup_append, hnone, none_or, hnew]
    · have hnone : lookup k rest.flatten = none := by
        refine lookup_of_forall_ne fun e he heq => ?_
        obtain ⟨l, hl, he⟩ := mem_flatten.mp he
        exact hcut (heq ▸ hrest.low l hl e he)
      rw [takeWhile_cons, if_neg (by simpa using hcut), length_nil,
        modify_zero_cons]
      refine ⟨.cons hle (fun e he => ?_) hrest, fun k' hk' => ?_, es, rfl, ?_, ?_⟩
      · rcases hkeys es e he with heq | he
        · rw [heq]
          exact ⟨hk, not_le.mp hcut⟩
        · exact hin e he
      · rw [flatten_cons, flatten_cons, lookup_append, lookup_append, hother es k' hk']
      · rw [flatten_cons, lookup_append, hnone, or_none]
      · rw [flatten_cons, lookup_append, hnone, or_none]

variable {p : κ × α → Bool}

omit [LinearOrder κ] in
theorem filter_flatten_eq_nil {ps : List (List (κ × α))}
    (h : ∀ es ∈ ps, ∀ e ∈ es, p e = false) : ps.flatten.filter p = [] := by
  rw [filter_eq_nil_iff]
  intro e he
  obtain ⟨es, hes, he⟩ := mem_flatten.mp he
  rw [h es hes e he]
  exact Bool.false_ne_true

theorem filter_take (h : CutAt lo cuts parts) (hk : lo ≤ k) (hp : ∀ e, p e = true → k ≤ e.1) :
    (parts.take (indexOf (lo :: cuts) k)).flatten.filter p = [] := by
  obtain ⟨before, es, after, rfl, hlen, hbefore, -⟩ := h.split hk
  rw [← hlen, take_left' rfl]
  refine filter_flatten_eq_nil fun es' hes' e he => Bool.eq_false_iff.mpr fun hpe => ?_
  exact absurd (hp e hpe) (not_le.mpr (hbefore es' hes' e he))

/-- The lists after a key's have no key up to it. -/
theorem filter_drop (h : CutAt lo cuts parts) (hk : lo ≤ k) (hp : ∀ e, p e = true → e.1 ≤ k) :
    (parts.drop (indexOf (lo :: cuts) k + 1)).flatten.filter p = [] := by
  obtain ⟨before, es, after, rfl, hlen, -, hafter⟩ := h.split hk
  have hdrop : (before ++ es :: after).drop (before.length + 1) = after := by
    rw [append_cons]
    exact drop_left' (by rw [length_append, length_singleton])
  rw [← hlen, hdrop]
  refine filter_flatten_eq_nil fun es' hes' e he => Bool.eq_false_iff.mpr fun hpe => ?_
  exact absurd (hp e hpe) (not_le.mpr (hafter es' hes' e he))

/-- The lists from a key's on hold all its later keys. -/
theorem filter_from (h : CutAt lo cuts parts) (hk : lo ≤ k) (hp : ∀ e, p e = true → k ≤ e.1) :
    (parts.drop (indexOf (lo :: cuts) k)).flatten.filter p = parts.flatten.filter p := by
  conv_rhs =>
    rw [← take_append_drop (indexOf (lo :: cuts) k) parts, flatten_append,
      filter_append, h.filter_take hk hp, nil_append]

theorem indexOf_mono (starts : List κ) {k' : κ} (hle : k ≤ k') :
    indexOf starts k ≤ indexOf starts k' := by
  have hlen : ∀ starts : List κ, (starts.takeWhile fun s => s ≤ k).length ≤
      (starts.takeWhile fun s => s ≤ k').length := by
    intro starts
    induction starts with
    | nil => exact le_refl _
    | cons s starts ih =>
      by_cases hs : s ≤ k
      · simp [hs, hs.trans hle, ih]
      · simp [hs]
  exact Nat.sub_le_sub_right (hlen _) 1

/-- The lists from one key's to another's hold all the keys between. -/
theorem filter_between (h : CutAt lo cuts parts) {k' : κ} (hk : lo ≤ k) (hkk' : k ≤ k')
    (hp : ∀ e, p e = true → k ≤ e.1 ∧ e.1 ≤ k') :
    ((parts.drop (indexOf (lo :: cuts) k)).take
        (indexOf (lo :: cuts) k' + 1 - indexOf (lo :: cuts) k)).flatten.filter p =
      parts.flatten.filter p := by
  have hrest : ((parts.drop (indexOf (lo :: cuts) k)).drop
      (indexOf (lo :: cuts) k' + 1 - indexOf (lo :: cuts) k)).flatten.filter p = [] := by
    have hmono := indexOf_mono (lo :: cuts) hkk'
    rw [drop_drop, Nat.add_sub_cancel' (by omega)]
    exact h.filter_drop (hk.trans hkk') fun e he => (hp e he).2
  rw [← h.filter_from hk fun e he => (hp e he).1]
  conv_rhs =>
    rw [← take_append_drop (indexOf (lo :: cuts) k' + 1 - indexOf (lo :: cuts) k)
      (parts.drop (indexOf (lo :: cuts) k)), flatten_append, filter_append, hrest,
      append_nil]

theorem zipWith_spec (h : CutAt lo cuts parts) (h' : CutAt lo cuts parts')
    {f : List (κ × α) → List (κ × α) → List (κ × α)}
    (hmem : ∀ es es', ∀ e ∈ f es es', e ∈ es ∨ e ∈ es')
    (hf : ∀ es es' k, lookup k (f es es') = (lookup k es).or (lookup k es')) :
    CutAt lo cuts (List.zipWith f parts parts') ∧
      ∀ k, lookup k (List.zipWith f parts parts').flatten =
        (lookup k parts.flatten).or (lookup k parts'.flatten) := by
  induction h generalizing parts' with
  | @last lo es hlo =>
    cases h' with
    | @last _ es' hlo' =>
      refine ⟨.last fun e he => ?_, fun k => ?_⟩
      · exact (hmem es es' e he).elim (hlo e) (hlo' e)
      · rw [zipWith_cons_cons, zipWith_nil_left, flatten_singleton,
          flatten_singleton, flatten_singleton, hf]
  | @cons lo cut cuts es rest hle hin hrest ih =>
    cases h' with
    | @cons _ _ _ es' rest' _ hin' hrest' =>
      obtain ⟨hcut, hlook⟩ := ih hrest'
      rw [zipWith_cons_cons]
      refine ⟨.cons hle (fun e he => ?_) hcut, fun k => ?_⟩
      · exact (hmem es es' e he).elim (hin e) (hin' e)
      · rw [flatten_cons, flatten_cons, flatten_cons, lookup_append, lookup_append,
          lookup_append, hf, hlook]
        -- a key of the second cutting's first list is in no later list of the first cutting
        have hapart : lookup k es' = none ∨ lookup k rest.flatten = none := by
          by_cases hcut : k < cut
          · right
            refine lookup_of_forall_ne fun e he heq => ?_
            obtain ⟨l, hl, he⟩ := mem_flatten.mp he
            exact absurd (hrest.low l hl e he) (not_le.mpr (heq ▸ hcut))
          · left
            refine lookup_of_forall_ne fun e he heq => ?_
            exact hcut (heq ▸ (hin' e he).2)
        rcases hapart with hnone | hnone
        · rw [hnone, or_none, none_or, Option.or_assoc]
        · rw [hnone, none_or, or_none, Option.or_assoc]

theorem cut_first {cut : κ} {es low high : List (κ × α)} {rest : List (List (κ × α))}
    (h : CutAt lo cuts (es :: rest)) (hle : lo ≤ cut) (hcuts : ∀ c ∈ cuts, cut ≤ c)
    (hes : es = low ++ high) (hlow : ∀ e ∈ low, e.1 < cut) (hhigh : ∀ e ∈ high, cut ≤ e.1) :
    CutAt lo (cut :: cuts) (low :: high :: rest) := by
  subst hes
  cases h with
  | last hlo =>
    refine .cons hle (fun e he => ⟨hlo e (mem_append_left _ he), hlow e he⟩) (.last hhigh)
  | cons _ hin hrest =>
    refine .cons hle (fun e he => ⟨(hin e (mem_append_left _ he)).1, hlow e he⟩) ?_
    exact .cons (hcuts _ mem_cons_self)
      (fun e he => ⟨hhigh e he, (hin e (mem_append_right _ he)).2⟩) hrest

end CutAt

section Cut

variable {es : List (κ × α)}

/-- Of an increasing list, what is left after the keys below one is not below it. -/
theorem le_of_mem_dropWhile (h : Increasing es) (k : κ) :
    ∀ e ∈ es.dropWhile fun e => e.1 < k, k ≤ e.1 := fun e he =>
  not_lt.mp (of_decide_eq_false (dropWhile_false (front_of_lt
    ((pairwise_map.mp h).imp le_of_lt) fun _ => decide_eq_true_iff) e he))

theorem entries_orInsertAll (m : OrdMap κ α) (es : List (κ × α)) :
    (orInsertAll m es).entries = firsts (m.entries ++ es) :=
  (firsts_eq (orInsertAll m es).sorted fun k => by
    rw [lookup_append]
    exact get?_orInsertAll m es k).symm

theorem mem_of_mem_firsts (he : e ∈ firsts es) : e ∈ es := by
  have hlook : lookup e.1 (firsts es) = some e.2 :=
    (lookup_eq_some_iff ((increasing_firsts es).imp ne_of_lt)).mpr he
  rw [lookup_firsts] at hlook
  exact mem_of_lookup hlook

end Cut

end FirstEntries
