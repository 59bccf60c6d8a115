import Reargo.FirstEntries
import Reargo.OrderedGroups

/-!
# Annotations added in bulk

Comments set where absent and tags added to addresses, many at once. A bulk path sorts and
merges, builds and appends, or puts the map held into the batch's. What it leaves is what
annotating one by one leaves.
-/
namespace BulkAnnotations

open OrderedMap FirstEntries OrderedGroups
open Option hiding filter filter_filter or or_assoc
open List hiding lookup lookup_eq_none_iff lookup_append

variable {κ α : Type*} [LinearOrder κ]

abbrev len (m : OrdMap κ α) : ℕ := m.entries.length

/-- `append`: the other map's values replace. -/
def append (m other : OrdMap κ α) : OrdMap κ α := putAll (fun v _ => v) m other.entries

section Comments

variable {m : OrdMap κ α} {es es' : List (κ × α)}

/-- The map with the entry set unless its key is there, and whether it was set. -/
def setIfAbsent (m : OrdMap κ α) (e : κ × α) : OrdMap κ α × Bool :=
  match m.get? e.1 with
  | none => (m.insert e.1 e.2, true)
  | some _ => (m, false)

def setEach (m : OrdMap κ α) (es : List (κ × α)) : OrdMap κ α × ℕ :=
  es.foldl (fun r e => ((setIfAbsent r.1 e).1, r.2 + (setIfAbsent r.1 e).2.toNat)) (m, 0)

/-- The entries whose key is not among the keys, which are read along. -/
def retainAbsent : List κ → List (κ × α) → List (κ × α)
  | _, [] => []
  | keys, e :: es =>
    let keys := keys.dropWhile (· < e.1)
    if keys.head? = some e.1 then retainAbsent keys es else e :: retainAbsent keys es

def setAllIfAbsent (m : OrdMap κ α) (items : List (κ × α)) : OrdMap κ α × ℕ :=
  if items.length < 64 ∨ items.length * 8 < len m then setEach m items
  else
    match firsts items with
    | [] => (m, 0)
    | e :: es =>
      let keys := (m.entries.map Prod.fst).filter (e.1 ≤ ·)
      let new := retainAbsent keys (e :: es)
      (append m (collect new), new.length)

/-- `CommentBatch::new`. -/
def commentBatch (items : List (κ × α)) : OrdMap κ α := collect (firsts items)

/-- One comment held put over the batch's; a key of both was not set. -/
def putHeld (r : OrdMap κ α × ℕ) (e : κ × α) : OrdMap κ α × ℕ :=
  (r.1.insert e.1 e.2, if (r.1.get? e.1).isSome then r.2 - 1 else r.2)

def setBatchIfAbsent (m batch : OrdMap κ α) : OrdMap κ α × ℕ :=
  if len m > len batch then setEach m batch.entries
  else m.entries.foldl putHeld (batch, len batch)

/-- What is there stays, of the items the first of each key is added, each counted. -/
def Added (m : OrdMap κ α) (es : List (κ × α)) (r : OrdMap κ α × ℕ) : Prop :=
  (∀ k, r.1.get? k = (m.get? k).or (lookup k es)) ∧ len r.1 = len m + r.2

theorem len_insert_fresh {k : κ} (v : α) (h : m.get? k = none) :
    len (m.insert k v) = len m + 1 := by
  simpa only [OrdMap.values, length_map, length_cons] using
    (OrdMap.values_insert_fresh v h).length_eq

theorem len_insert_replace {k : κ} {w : α} (v : α) (h : m.get? k = some w) :
    len (m.insert k v) = len m := by
  simpa only [OrdMap.values, length_map, length_cons, Nat.add_right_cancel_iff] using
    (OrdMap.values_insert_replace v h).length_eq

theorem length_le_len (hes : Increasing es) (h : ∀ k, m.get? k = none → lookup k es = none) :
    es.length ≤ len m := by
  have hsub : es.map Prod.fst ⊆ m.entries.map Prod.fst := fun k hk => by
    by_contra hnot
    exact lookup_eq_none_iff.mp (h k (lookup_eq_none_iff.mpr hnot)) hk
  simpa using (subperm_of_subset (hes.imp fun h => ne_of_lt h) hsub).length_le

namespace Added

variable {r r' : OrdMap κ α × ℕ}

theorem eq (h : Added m es r) (h' : Added m es r') : r = r' := by
  have hmap : r.1.entries = r'.1.entries :=
    eq_of_lookup_eq r.1.sorted r'.1.sorted fun k => (h.1 k).trans (h'.1 k).symm
  have hlen : r.2 = r'.2 :=
    Nat.add_left_cancel (h.2.symm.trans ((congrArg List.length hmap).trans h'.2))
  obtain ⟨⟨_, _⟩, n⟩ := r
  obtain ⟨⟨_, _⟩, n'⟩ := r'
  cases hmap
  cases hlen
  rfl

theorem congr (h : Added m es r) (heq : ∀ k, m.get? k = none → lookup k es = lookup k es') :
    Added m es' r := by
  refine ⟨fun k => ?_, h.2⟩
  rw [h.1 k]
  cases hk : m.get? k with
  | none => rw [heq k hk]
  | some v => rfl

theorem nil (m : OrdMap κ α) : Added m [] (m, 0) := ⟨fun _ => (or_none).symm, rfl⟩

theorem step (h : Added m es r) (e : κ × α) :
    Added m (es ++ [e]) ((setIfAbsent r.1 e).1, r.2 + (setIfAbsent r.1 e).2.toNat) := by
  have hset : (setIfAbsent r.1 e).1 = orInsert r.1 e := by
    unfold setIfAbsent orInsert
    cases r.1.get? e.1 <;> rfl
  refine ⟨fun k => ?_, ?_⟩
  · rw [hset, get?_orInsert, h.1 k, lookup_append, Option.or_assoc]
  · unfold setIfAbsent
    cases hk : r.1.get? e.1 with
    | none => exact (len_insert_fresh e.2 hk).trans (congrArg (· + 1) h.2)
    | some v => exact h.2

end Added

theorem added_setEach (m : OrdMap κ α) (es : List (κ × α)) : Added m es (setEach m es) := by
  induction es using List.reverseRecOn with
  | nil => exact .nil m
  | append_singleton es e ih =>
    have hstep := ih.step e
    unfold setEach at hstep ⊢
    rw [foldl_append]
    exact hstep

theorem added_append (h : Increasing es) (hfresh : ∀ e ∈ es, m.get? e.1 = none) :
    Added m es (append m (collect es), es.length) := by
  unfold append
  rw [entries_collect h]
  induction es using List.reverseRecOn with
  | nil => exact .nil m
  | append_singleton es e ih =>
    obtain ⟨hinc, hne⟩ := h.of_concat
    have hadded := ih hinc fun x hx => hfresh x (mem_append_left _ hx)
    have hnone : (putAll (fun v _ => v) m es).get? e.1 = none := by
      rw [hadded.1, hfresh e (mem_append_right _ mem_cons_self),
        lookup_of_forall_ne hne]
      rfl
    have hstep := hadded.step e
    unfold setIfAbsent at hstep
    rw [hnone] at hstep
    unfold putAll at hstep ⊢
    rw [foldl_append, length_append]
    exact hstep

theorem mem_dropWhile {a k : κ} (hk : a ≤ k) (keys : List κ) :
    k ∈ keys.dropWhile (· < a) ↔ k ∈ keys := by
  induction keys with
  | nil => rfl
  | cons x keys ih =>
    by_cases hx : x < a
    · rw [dropWhile_cons_of_pos (by simpa using hx), ih, mem_cons,
        or_iff_right (hx.trans_le hk).ne']
    · rw [dropWhile_cons_of_neg (by simpa using hx)]

theorem head?_dropWhile {keys : List κ} (h : keys.Pairwise (· < ·)) (a : κ) :
    (keys.dropWhile (· < a)).head? = some a ↔ a ∈ keys := by
  rw [← mem_dropWhile le_rfl]
  have hsorted := h.sublist (dropWhile_sublist (· < a))
  have hfirst := head?_dropWhile_not (· < a) keys
  cases hd : keys.dropWhile (· < a) with
  | nil => simp
  | cons k ks =>
    rw [hd] at hsorted hfirst
    have hk : a ≤ k := not_lt.mp (of_decide_eq_false hfirst)
    rw [head?_cons, some_inj, mem_cons]
    exact ⟨fun h => .inl h.symm, fun h => (h.resolve_right fun h =>
      hk.not_gt ((pairwise_cons.mp hsorted).1 a h)).symm⟩

theorem retainAbsent_eq {keys : List κ} (hkeys : keys.Pairwise (· < ·)) (hes : Increasing es) :
    retainAbsent keys es = es.filter fun e => e.1 ∉ keys := by
  induction es generalizing keys with
  | nil => rfl
  | cons e es ih =>
    obtain ⟨hlt, hinc⟩ := pairwise_cons.mp hes
    have hrest : retainAbsent (keys.dropWhile (· < e.1)) es = es.filter fun e => e.1 ∉ keys := by
      rw [ih (hkeys.sublist (dropWhile_sublist _)) hinc]
      refine filter_congr fun x hx => ?_
      rw [decide_eq_decide, mem_dropWhile (hlt x.1 (mem_map_of_mem hx)).le]
    unfold retainAbsent
    simp only [hrest, head?_dropWhile hkeys, filter_cons, decide_not]
    by_cases he : e.1 ∈ keys <;> simp [he]

theorem added_setAllIfAbsent (m : OrdMap κ α) (items : List (κ × α)) :
    Added m items (setAllIfAbsent m items) := by
  unfold setAllIfAbsent
  split
  · exact added_setEach m items
  have hinc := increasing_firsts items
  have hlook := fun k => lookup_firsts k items
  generalize firsts items = es at hinc hlook
  cases es with
  | nil => exact (Added.nil m).congr fun k _ => hlook k
  | cons e es =>
    -- a key of the batch is not below its first
    have hnew : retainAbsent ((m.entries.map Prod.fst).filter (e.1 ≤ ·)) (e :: es) =
        (e :: es).filter fun x => m.get? x.1 = none := by
      rw [retainAbsent_eq (m.sorted.filter _) hinc]
      refine filter_congr fun x hx => ?_
      have hle : e.1 ≤ x.1 := by
        rcases mem_cons.mp hx with rfl | hx
        · exact le_rfl
        · exact ((pairwise_cons.mp hinc).1 x.1 (mem_map_of_mem hx)).le
      rw [decide_eq_decide, OrdMap.get?, lookup_eq_none_iff, mem_filter]
      simp [hle]
    dsimp only
    rw [hnew]
    refine (added_append (hinc.sublist (filter_sublist.map _)) fun x hx =>
      of_decide_eq_true (mem_filter.mp hx).2).congr fun k hk => ?_
    rw [← hlook, lookup_eq_head_filter, lookup_eq_head_filter, filter_filter]
    congr 2
    refine filter_congr fun x _ => ?_
    by_cases hx : k = x.1
    · subst hx
      simp [hk]
    · simp [hx]

theorem putHeld_run (batch : OrdMap κ α) (h : Increasing es) :
    (∀ k, (es.foldl putHeld (batch, len batch)).1.get? k = (lookup k es).or (batch.get? k)) ∧
      len (es.foldl putHeld (batch, len batch)).1 =
        es.length + (es.foldl putHeld (batch, len batch)).2 := by
  induction es using List.reverseRecOn with
  | nil => exact ⟨fun _ => rfl, (zero_add _).symm⟩
  | append_singleton es e ih =>
    obtain ⟨hget, hlen⟩ := ih h.of_concat.1
    rw [foldl_append, foldl_cons, foldl_nil]
    generalize es.foldl putHeld (batch, len batch) = r at hget hlen
    have hget' : ∀ k, (putHeld r e).1.get? k = (lookup k (es ++ [e])).or (batch.get? k) := by
      intro k
      show (r.1.insert e.1 e.2).get? k = _
      rw [OrdMap.get?_insert, lookup_concat h]
      by_cases hk : k = e.1
      · rw [if_pos hk, if_pos hk]
        rfl
      · rw [if_neg hk, if_neg hk, hget]
    refine ⟨hget', ?_⟩
    have hle : (es ++ [e]).length ≤ len (putHeld r e).1 := length_le_len h fun k hk =>
      (or_eq_none_iff.mp ((hget' k).symm.trans hk)).1
    rw [length_append, length_singleton] at hle ⊢
    unfold putHeld at hle ⊢
    cases hk : r.1.get? e.1 with
    | none =>
      rw [len_insert_fresh _ hk, hlen]
      exact add_right_comm _ _ _
    | some v =>
      -- the keys put so far and this one are keys of the map
      rw [len_insert_replace _ hk] at hle ⊢
      simp only [isSome_some, if_true]
      omega

theorem added_setBatchIfAbsent (m : OrdMap κ α) (items : List (κ × α)) :
    Added m items (setBatchIfAbsent m (commentBatch items)) := by
  have hentries : (commentBatch items).entries = firsts items :=
    entries_collect (increasing_firsts items)
  unfold setBatchIfAbsent
  split
  · rw [hentries]
    exact (added_setEach m (firsts items)).congr fun k _ => lookup_firsts k items
  · obtain ⟨hget, hlen⟩ := putHeld_run (commentBatch items) m.sorted
    refine ⟨fun k => ?_, hlen⟩
    rw [hget k, ← lookup_firsts k items, ← hentries]
    rfl

end Comments

section Tags

variable {m : OrdMap κ (List α)} {gs es : Groups κ α} {e : κ × List α} {k : κ}

/-- What is under a key, none if the key is not there. -/
def tagsAt (m : OrdMap κ (List α)) (k : κ) : List α := (m.get? k).getD []

/-- `entry(k).or_default().extend(..)`. -/
def addTags (m : OrdMap κ (List α)) (e : κ × List α) : OrdMap κ (List α) :=
  m.insert e.1 (tagsAt m e.1 ++ e.2)

def addEach (m : OrdMap κ (List α)) (es : Groups κ α) : OrdMap κ (List α) := es.foldl addTags m

def Sorted (es : Groups κ α) : Prop := es.Pairwise fun a b => a.1 ≤ b.1

instance (es : Groups κ α) : Decidable (Sorted es) := by unfold Sorted; infer_instance

/-- The last group takes the tags if it is of their address, else they are a new one. -/
def pushGroup (gs : Groups κ α) (e : κ × List α) : Groups κ α :=
  match gs.getLast? with
  | some g => if g.1 = e.1 then gs.dropLast ++ [(g.1, g.2 ++ e.2)] else gs ++ [e]
  | none => gs ++ [e]

def groupRuns (es : Groups κ α) : Groups κ α := es.foldl pushGroup []

/-- A tag goes to the last fresh group or to its address, else it starts a fresh group. -/
def addStep (s : OrdMap κ (List α) × Groups κ α) (e : κ × List α) :
    OrdMap κ (List α) × Groups κ α :=
  if s.2.getLast?.map Prod.fst = some e.1 then (s.1, pushGroup s.2 e)
  else
    match s.1.get? e.1 with
    | some vs => (s.1.insert e.1 (vs ++ e.2), s.2)
    | none => (s.1, s.2 ++ [e])

def addAddresses (m : OrdMap κ (List α)) (es : Groups κ α) : OrdMap κ (List α) :=
  if Sorted es then
    let s := es.foldl addStep (m, [])
    append s.1 (collect s.2)
  else addEach m es

inductive AddressTagBatch (κ α : Type*) [LinearOrder κ]
  | grouped (added : OrdMap κ (List α))
  | unsorted (es : Groups κ α)

def AddressTagBatch.new (es : Groups κ α) : AddressTagBatch κ α :=
  if Sorted es then .grouped (collect (groupRuns es)) else .unsorted es

/-- A part's first group continues the last one when it is of the same address. -/
def joinPart (all part : Groups κ α) : Groups κ α :=
  match part with
  | [] => all
  | e :: rest => pushGroup all e ++ rest

def AddressTagBatch.fromParts (parts : List (Groups κ α)) : AddressTagBatch κ α :=
  if Sorted parts.flatten then .grouped (collect ((parts.map groupRuns).foldl joinPart []))
  else .unsorted parts.flatten

def addAddressBatch (m : OrdMap κ (List α)) : AddressTagBatch κ α → OrdMap κ (List α)
  | .unsorted es => addAddresses m es
  | .grouped added =>
    if len m > len added then addEach m added.entries
    else putAll (fun tags new => tags ++ new.getD []) added m.entries

theorem tagsAt_addEach (m : OrdMap κ (List α)) (es : Groups κ α) (k : κ) :
    tagsAt (addEach m es) k = tagsAt m k ++ valuesAt k es := by
  unfold addEach
  induction es generalizing m with
  | nil => exact (append_nil _).symm
  | cons e es ih =>
    rw [foldl_cons, ih, valuesAt_cons, ← append_assoc]
    congr 1
    unfold tagsAt addTags
    rw [OrdMap.get?_insert]
    by_cases hk : k = e.1
    · subst hk
      rw [if_pos rfl, if_pos rfl]
      rfl
    · rw [if_neg hk, if_neg (Ne.symm hk), append_nil]

theorem get?_addEach_eq_none :
    (addEach m es).get? k = none ↔ m.get? k = none ∧ ∀ e ∈ es, e.1 ≠ k := by
  unfold addEach
  induction es generalizing m with
  | nil => simp
  | cons e es ih =>
    rw [foldl_cons, ih, addTags, OrdMap.get?_insert, forall_mem_cons]
    by_cases hk : k = e.1
    · simp [hk]
    · simp [hk, Ne.symm hk]

theorem pushGroup_cases (gs : Groups κ α) (e : κ × List α) :
    (∃ xs vs, gs = xs ++ [(e.1, vs)] ∧ pushGroup gs e = xs ++ [(e.1, vs ++ e.2)]) ∨
      gs.getLast?.map Prod.fst ≠ some e.1 ∧ pushGroup gs e = gs ++ [e] := by
  unfold pushGroup
  cases gs using List.reverseRecOn with
  | nil => exact .inr ⟨by simp, rfl⟩
  | append_singleton xs g =>
    simp only [getLast?_concat, dropLast_concat, map_some, some_inj, ne_eq]
    by_cases hg : g.1 = e.1
    · exact .inl ⟨xs, g.2, hg ▸ rfl, by rw [if_pos hg, hg]⟩
    · exact .inr ⟨hg, if_neg hg⟩

theorem pushGroup_of_ne (h : gs.getLast?.map Prod.fst ≠ some e.1) : pushGroup gs e = gs ++ [e] := by
  rcases pushGroup_cases gs e with ⟨xs, vs, rfl, -⟩ | ⟨-, hpush⟩
  · exact absurd (by simp) h
  · exact hpush

theorem keys_pushGroup (h : k ∈ (pushGroup gs e).map Prod.fst) : k ∈ gs.map Prod.fst ∨ k = e.1 := by
  rcases pushGroup_cases gs e with ⟨xs, vs, rfl, hpush⟩ | ⟨-, hpush⟩ <;>
    simpa [hpush, or_assoc] using h

theorem keys_groupRuns (h : k ∈ (groupRuns es).map Prod.fst) : k ∈ es.map Prod.fst := by
  unfold groupRuns at h
  induction es using List.reverseRecOn with
  | nil => exact h
  | append_singleton es e ih =>
    rw [foldl_append] at h
    rw [map_append, mem_append]
    exact (keys_pushGroup h).imp ih mem_singleton.mpr

theorem pushGroup_spec (hinc : Increasing gs) (hle : ∀ x ∈ gs, x.1 ≤ e.1) :
    Increasing (pushGroup gs e) ∧
      ∀ k, valuesAt k (pushGroup gs e) = valuesAt k gs ++ valuesAt k [e] := by
  rcases pushGroup_cases gs e with ⟨xs, vs, rfl, hpush⟩ | ⟨hlast, hpush⟩
  · rw [hpush]
    refine ⟨by simpa [Increasing] using hinc, fun k => ?_⟩
    simp only [valuesAt_append, valuesAt_cons, valuesAt_nil, append_assoc]
    split <;> simp
  · rw [hpush]
    refine ⟨?_, fun k => valuesAt_append k gs [e]⟩
    -- a last key that is the greatest would be the last one
    have hlt : ∀ x ∈ gs, x.1 < e.1 := fun x hx => by
      refine lt_of_le_of_ne (hle x hx) fun heq => hlast ?_
      cases gs using List.reverseRecOn with
      | nil => cases hx
      | append_singleton gs g =>
        rcases mem_append.mp hx with hxs | hxg
        · have hxg := (pairwise_append.mp (pairwise_map.mp hinc)).2.2 x hxs g
            mem_cons_self
          exact absurd (hle g (mem_append_right _ mem_cons_self)) (heq ▸ hxg).not_ge
        · simp [← heq, mem_singleton.mp hxg]
    unfold Increasing
    rw [map_append, pairwise_append]
    refine ⟨hinc, pairwise_singleton _ _, fun a ha b hb => ?_⟩
    obtain ⟨x, hx, rfl⟩ := mem_map.mp ha
    exact mem_singleton.mp hb ▸ hlt x hx

theorem groupRuns_spec (h : Sorted es) :
    Increasing (groupRuns es) ∧ ∀ k, valuesAt k (groupRuns es) = valuesAt k es := by
  induction es using List.reverseRecOn with
  | nil => exact ⟨List.Pairwise.nil, fun _ => rfl⟩
  | append_singleton es e ih =>
    obtain ⟨hes, -, hle⟩ := pairwise_append.mp h
    obtain ⟨hinc, hval⟩ := ih hes
    have hpush := pushGroup_spec (e := e) hinc fun x hx => by
      obtain ⟨y, hy, heq⟩ := mem_map.mp (keys_groupRuns (mem_map_of_mem hx))
      exact heq ▸ hle y hy e mem_cons_self
    have hrun : groupRuns (es ++ [e]) = pushGroup (groupRuns es) e := foldl_append
    refine ⟨hrun ▸ hpush.1, fun k => ?_⟩
    rw [hrun, hpush.2, hval, valuesAt_append]

theorem foldl_pushGroup (xs : Groups κ α) {g : κ × List α} (h : Increasing (g :: es)) :
    es.foldl pushGroup (xs ++ [g]) = xs ++ [g] ++ es := by
  induction es generalizing xs g with
  | nil => exact (append_nil _).symm
  | cons e es ih =>
    obtain ⟨hlt, hinc⟩ := pairwise_cons.mp h
    have hne := (hlt e.1 mem_cons_self).ne
    rw [foldl_cons, pushGroup_of_ne (by simpa using hne), ih _ hinc, append_assoc _ [e]]
    rfl

theorem joinPart_eq (all : Groups κ α) (h : Increasing es) :
    joinPart all es = es.foldl pushGroup all := by
  cases es with
  | nil => rfl
  | cons e es =>
    show pushGroup all e ++ es = es.foldl pushGroup (pushGroup all e)
    rcases pushGroup_cases all e with ⟨xs, vs, -, hpush⟩ | ⟨-, hpush⟩
    · rw [hpush, foldl_pushGroup xs (g := (e.1, vs ++ e.2)) h]
    · rw [hpush, foldl_pushGroup all h]

theorem joinParts_spec {parts : List (Groups κ α)} (h : Sorted parts.flatten) :
    Increasing ((parts.map groupRuns).foldl joinPart []) ∧
      ∀ k, valuesAt k ((parts.map groupRuns).foldl joinPart []) = valuesAt k parts.flatten := by
  obtain ⟨hparts, hcross⟩ := pairwise_flatten.mp h
  have hjoin : (parts.map groupRuns).foldl joinPart [] = groupRuns (parts.map groupRuns).flatten := by
    unfold groupRuns
    rw [foldl_flatten]
    refine foldl_ext _ _ _ fun all part hpart => ?_
    obtain ⟨p, hp, rfl⟩ := mem_map.mp hpart
    exact joinPart_eq all (groupRuns_spec (hparts p hp)).1
  have hsorted : Sorted (parts.map groupRuns).flatten := by
    refine pairwise_flatten.mpr ⟨fun part hpart => ?_, ?_⟩
    · obtain ⟨p, hp, rfl⟩ := mem_map.mp hpart
      exact (pairwise_map.mp (groupRuns_spec (hparts p hp)).1).imp le_of_lt
    · refine pairwise_map.mpr (hcross.imp fun hle x hx y hy => ?_)
      obtain ⟨x', hx', hxeq⟩ := mem_map.mp (keys_groupRuns (mem_map_of_mem hx))
      obtain ⟨y', hy', hyeq⟩ := mem_map.mp (keys_groupRuns (mem_map_of_mem hy))
      exact hxeq ▸ hyeq ▸ hle x' hx' y' hy'
  refine ⟨hjoin ▸ (groupRuns_spec hsorted).1, fun k => ?_⟩
  rw [hjoin, (groupRuns_spec hsorted).2]
  clear hjoin hsorted hcross h
  induction parts with
  | nil => rfl
  | cons p parts ih =>
    rw [map_cons, flatten_cons, flatten_cons, valuesAt_append, valuesAt_append,
      ih fun p hp => hparts p (mem_cons_of_mem _ hp),
      (groupRuns_spec (hparts p mem_cons_self)).2]

theorem addStep_run (m : OrdMap κ (List α)) (es : Groups κ α) :
    es.foldl addStep (m, []) = (addEach m (es.filter fun e => (m.get? e.1).isSome),
      groupRuns (es.filter fun e => (m.get? e.1).isNone)) := by
  induction es using List.reverseRecOn with
  | nil => rfl
  | append_singleton es e ih =>
    rw [foldl_append, ih, filter_append, filter_append, foldl_cons,
      foldl_nil]
    generalize hin : es.filter (fun e => (m.get? e.1).isSome) = present
    generalize hout : es.filter (fun e => (m.get? e.1).isNone) = absent
    unfold addStep
    cases hk : m.get? e.1 with
    | none =>
      have hnone : (addEach m present).get? e.1 = none :=
        get?_addEach_eq_none.mpr ⟨hk, fun x hx heq => by
          rw [← hin, mem_filter, heq, hk] at hx
          cases hx.2⟩
      have hgroup : groupRuns (absent ++ [e]) = pushGroup (groupRuns absent) e := foldl_append
      simp only [hnone, hk, filter_cons, filter_nil, isSome_none, isNone_none,
        if_true, Bool.false_eq_true, if_false, append_nil, hgroup]
      split
      · rfl
      · next hlast => rw [pushGroup_of_ne hlast]
    | some vs =>
      have hlast : (groupRuns absent).getLast?.map Prod.fst ≠ some e.1 := fun heq => by
        obtain ⟨g, hg, hge⟩ := map_eq_some_iff.mp heq
        have hkey := keys_groupRuns (mem_map_of_mem (f := Prod.fst) (mem_of_getLast? hg))
        obtain ⟨x, hx, hxe⟩ := mem_map.mp hkey
        rw [← hout, mem_filter, hxe, hge, hk] at hx
        cases hx.2
      have hadd : addEach m (present ++ [e]) = addTags (addEach m present) e := foldl_append
      simp only [hk, filter_cons, filter_nil, isSome_some, isNone_some,
        if_true, Bool.false_eq_true, if_false, append_nil, hadd, if_neg hlast]
      cases hget : (addEach m present).get? e.1 with
      | none => rw [(get?_addEach_eq_none.mp hget).1] at hk; cases hk
      | some ws => simp [addTags, tagsAt, hget]

theorem valuesAt_filter (p : κ → Bool) (k : κ) (es : Groups κ α) :
    valuesAt k (es.filter fun e => p e.1) = if p k then valuesAt k es else [] := by
  unfold valuesAt
  rw [filter_filter]
  split
  · next hp =>
    congr 1
    refine filter_congr fun e _ => ?_
    by_cases he : e.1 = k <;> simp [he, hp]
  · next hp =>
    rw [filter_eq_nil_iff.mpr, flatMap_nil]
    rintro e - he
    simp only [Bool.and_eq_true, decide_eq_true_eq] at he
    exact hp (he.1 ▸ he.2)

theorem tagsAt_addAddresses (m : OrdMap κ (List α)) (es : Groups κ α) (k : κ) :
    tagsAt (addAddresses m es) k = tagsAt m k ++ valuesAt k es := by
  unfold addAddresses
  split
  case isFalse => exact tagsAt_addEach m es k
  next hsorted =>
  obtain ⟨hinc, hval⟩ := groupRuns_spec (hsorted.filter fun e => (m.get? e.1).isNone)
  have hheld := tagsAt_addEach m (es.filter fun e => (m.get? e.1).isSome) k
  have hfresh := (getD_lookup hinc k).trans (hval k)
  rw [valuesAt_filter fun k => (m.get? k).isSome] at hheld
  rw [valuesAt_filter fun k => (m.get? k).isNone] at hfresh
  dsimp only
  rw [addStep_run]
  unfold append
  unfold tagsAt at hheld ⊢
  rw [entries_collect hinc, get?_putAll _ _ hinc]
  cases hk : m.get? k with
  | none =>
    rw [hk] at hheld hfresh
    cases hl : lookup k (groupRuns (es.filter fun e => (m.get? e.1).isNone)) with
    | none =>
      rw [hl] at hfresh
      exact hheld.trans hfresh
    | some vs =>
      rw [hl] at hfresh
      exact hfresh
  | some vs =>
    rw [hk] at hheld
    have hnone : lookup k (groupRuns (es.filter fun e => (m.get? e.1).isNone)) = none := by
      refine lookup_eq_none_iff.mpr fun hmem => ?_
      obtain ⟨x, hx, rfl⟩ := mem_map.mp (keys_groupRuns hmem)
      rw [mem_filter, hk] at hx
      cases hx.2
    rw [hnone]
    exact hheld

theorem tagsAt_grouped (m : OrdMap κ (List α)) (h : Increasing gs) (k : κ) :
    tagsAt (addAddressBatch m (.grouped (collect gs))) k = tagsAt m k ++ valuesAt k gs := by
  have hnew := getD_lookup (collect gs).sorted k
  have hentries := entries_collect h
  generalize collect gs = added at hnew hentries
  rw [hentries] at hnew
  show tagsAt (if len m > len added then _ else _) k = _
  split
  · rw [tagsAt_addEach, hentries]
  · rw [← hnew]
    unfold tagsAt
    rw [get?_putAll _ _ m.sorted, ← hentries]
    show Option.getD ((m.get? k).elim _ _) [] = _
    cases m.get? k <;> rfl

end Tags

inductive CommentType | eol | pre | post | plate | repeatable
  deriving DecidableEq

def CommentType.rank : CommentType → ℕ
  | .eol => 0 | .pre => 1 | .post => 2 | .plate => 3 | .repeatable => 4

instance : LinearOrder CommentType :=
  LinearOrder.lift' CommentType.rank fun a b h => by cases a <;> cases b <;> first | rfl | cases h

abbrev Comments := OrdMap (BitVec 64 ×ₗ CommentType) String

inductive TagKind
  | important | suspicious | library | crypto | bug | crash | noReturn | wrapper | recursive
  | loop | stackProtected | antiDebug | exception | custom (name : String)

structure Tag where
  kind : TagKind
  text : String
  auto : Bool

abbrev TagMap := OrdMap (BitVec 64) (List Tag)

def tagsOf (auto : Bool) (tags : List (BitVec 64 × TagKind × String)) : Groups (BitVec 64) Tag :=
  tags.map fun t => (t.1, [⟨t.2.1, t.2.2, auto⟩])

/-- In bulk as one by one: the same comments and count, the same tags at every address. -/
theorem bulk_adds_each (comments : Comments) (items : List ((BitVec 64 ×ₗ CommentType) × String))
    (m : TagMap) (auto : Bool) (parts : List (List (BitVec 64 × TagKind × String))) :
    (setAllIfAbsent comments items = setEach comments items ∧
      setBatchIfAbsent comments (commentBatch items) = setEach comments items) ∧
    ∀ address,
      tagsAt (addAddresses m (tagsOf auto parts.flatten)) address =
        tagsAt (addEach m (tagsOf auto parts.flatten)) address ∧
      tagsAt (addAddressBatch m (.new (tagsOf auto parts.flatten))) address =
        tagsAt (addEach m (tagsOf auto parts.flatten)) address ∧
      tagsAt (addAddressBatch m (.fromParts (parts.map (tagsOf auto)))) address =
        tagsAt (addEach m (tagsOf auto parts.flatten)) address := by
  refine ⟨⟨(added_setAllIfAbsent comments items).eq (added_setEach comments items),
    (added_setBatchIfAbsent comments items).eq (added_setEach comments items)⟩, fun a => ?_⟩
  have hflat : (parts.map (tagsOf auto)).flatten = tagsOf auto parts.flatten :=
    map_flatten.symm
  rw [tagsAt_addEach, tagsAt_addAddresses]
  refine ⟨rfl, ?_⟩
  unfold AddressTagBatch.new AddressTagBatch.fromParts
  rw [← hflat]
  split
  · next h =>
    obtain ⟨hinc, hval⟩ := groupRuns_spec h
    obtain ⟨hinc', hval'⟩ := joinParts_spec h
    rw [tagsAt_grouped m hinc, tagsAt_grouped m hinc', hval, hval']
    exact ⟨rfl, rfl⟩
  · exact ⟨tagsAt_addAddresses m _ a, tagsAt_addAddresses m _ a⟩

end BulkAnnotations
