import Reargo.FirstEntries
import Mathlib.Data.List.TakeWhile

/-!
# Ordered groups

Values in lists under their keys, the keys in increasing order. Such a map is determined
by the values at each key, so two ways of building it are compared key by key. A map kept
in parts of increasing key ranges reads as one map.
-/
namespace OrderedGroups

open OrderedMap FirstEntries
open List hiding Pairwise lookup lookup_append

variable {κ α : Type*} [LinearOrder κ] {e : κ × List α}

abbrev Groups (κ α : Type*) := List (κ × List α)

def valuesAt (k : κ) (m : Groups κ α) : List α :=
  (m.filter fun e => e.1 = k).flatMap Prod.snd

/-- Append to the list of a key. -/
def extend (m : Groups κ α) (k : κ) (vs : List α) : Groups κ α :=
  insertEntry k ((lookup k m).getD [] ++ vs) m

/-- Below a bound, if there is one. -/
def Below (k : κ) (hi : Option κ) : Prop := ∀ h, hi = some h → k < h

/-- Increasing keys of the range, each with values. -/
structure Fits (lo : κ) (hi : Option κ) (m : Groups κ α) : Prop where
  ascending : (m.map Prod.fst).Pairwise (· < ·)
  nonempty : ∀ e ∈ m, e.2 ≠ []
  low : ∀ e ∈ m, lo ≤ e.1
  high : ∀ e ∈ m, Below e.1 hi

section Values

variable {k : κ} {m : Groups κ α}

@[simp] theorem valuesAt_nil (k : κ) : valuesAt k ([] : Groups κ α) = [] := rfl

theorem valuesAt_append (k : κ) (m m' : Groups κ α) :
    valuesAt k (m ++ m') = valuesAt k m ++ valuesAt k m' := by
  simp [valuesAt]

theorem valuesAt_cons (k : κ) (e : κ × List α) (m : Groups κ α) :
    valuesAt k (e :: m) = (if e.1 = k then e.2 else []) ++ valuesAt k m := by
  by_cases h : e.1 = k <;> simp [valuesAt, h]

theorem valuesAt_eq_nil (h : ∀ e ∈ m, e.1 ≠ k) : valuesAt k m = [] := by
  have hnone : m.filter (fun e => e.1 = k) = [] :=
    filter_eq_nil_iff.mpr fun e he heq => h e he (of_decide_eq_true heq)
  unfold valuesAt
  rw [hnone]
  rfl

theorem getD_lookup (hm : (m.map Prod.fst).Pairwise (· < ·)) (k : κ) :
    (lookup k m).getD [] = valuesAt k m := by
  induction m with
  | nil => rfl
  | cons e m ih =>
    obtain ⟨k', l⟩ := e
    obtain ⟨hlt, hrest⟩ := pairwise_cons.mp hm
    rw [valuesAt_cons]
    by_cases h : k = k'
    · subst h
      have hnil : valuesAt k m = [] := valuesAt_eq_nil fun e he =>
        ne_of_gt (hlt e.1 (mem_map_of_mem he))
      simp [lookup, hnil]
    · simp [lookup, h, Ne.symm h, ih hrest]

end Values

variable {k lo' : κ}

namespace Fits

variable {lo mid : κ} {hi : Option κ} {m m' : Groups κ α}

theorem nil (lo : κ) (hi : Option κ) : Fits lo hi ([] : Groups κ α) :=
  ⟨List.Pairwise.nil, fun _ h => absurd h not_mem_nil, fun _ h => absurd h not_mem_nil,
    fun _ h => absurd h not_mem_nil⟩

theorem lookup_iff (h : Fits lo hi m) (k : κ) (l : List α) :
    lookup k m = some l ↔ valuesAt k m = l ∧ l ≠ [] := by
  rw [← getD_lookup h.ascending]
  cases hl : lookup k m with
  | none => simp [eq_comm]
  | some l' =>
    have hne := h.nonempty (k, l') (mem_of_lookup hl)
    simp only [Option.some_inj, Option.getD_some]
    exact ⟨fun heq => ⟨heq, heq ▸ hne⟩, And.left⟩

theorem eq_of_valuesAt {hi' : Option κ} (h : Fits lo hi m) (h' : Fits lo' hi' m')
    (heq : ∀ k, valuesAt k m = valuesAt k m') : m = m' :=
  eq_of_lookup_eq h.ascending h'.ascending fun k => Option.ext fun l => by
    rw [h.lookup_iff, h'.lookup_iff, heq]

theorem tail (h : Fits lo hi (e :: m)) : Fits lo hi m :=
  ⟨(pairwise_cons.mp h.ascending).2, fun e' he' => h.nonempty e' (mem_cons_of_mem _ he'),
    fun e' he' => h.low e' (mem_cons_of_mem _ he'),
    fun e' he' => h.high e' (mem_cons_of_mem _ he')⟩

theorem cons (h : Fits lo hi m) (hne : e.2 ≠ []) (hlo : lo ≤ e.1)
    (hhi : Below e.1 hi) (hlt : ∀ e' ∈ m, e.1 < e'.1) : Fits lo hi (e :: m) := by
  refine ⟨pairwise_cons.mpr ⟨fun k hk => ?_, h.ascending⟩,
    forall_mem_cons.mpr ⟨hne, h.nonempty⟩, forall_mem_cons.mpr ⟨hlo, h.low⟩,
    forall_mem_cons.mpr ⟨hhi, h.high⟩⟩
  obtain ⟨e', he', rfl⟩ := mem_map.mp hk
  exact hlt e' he'

theorem head_lt (h : Fits lo hi (e :: m)) : ∀ e' ∈ m, e.1 < e'.1 :=
  fun _ he' => (pairwise_cons.mp h.ascending).1 _ (mem_map_of_mem he')

theorem filter (h : Fits lo hi m) (p : κ × List α → Bool) : Fits lo hi (m.filter p) :=
  ⟨h.ascending.sublist ((filter_sublist).map _),
    fun e he => h.nonempty e (mem_of_mem_filter he),
    fun e he => h.low e (mem_of_mem_filter he),
    fun e he => h.high e (mem_of_mem_filter he)⟩

theorem append (h : Fits lo (some mid) m) (h' : Fits mid hi m') (hlo : lo ≤ mid)
    (hhi : Below mid hi) : Fits lo hi (m ++ m') := by
  refine ⟨?_, fun e he => ?_, fun e he => ?_, fun e he => ?_⟩
  · rw [map_append, pairwise_append]
    refine ⟨h.ascending, h'.ascending, fun a ha b hb => ?_⟩
    obtain ⟨e, he, rfl⟩ := mem_map.mp ha
    obtain ⟨e', he', rfl⟩ := mem_map.mp hb
    exact (h.high e he mid rfl).trans_le (h'.low e' he')
  · exact (mem_append.mp he).elim (h.nonempty e) (h'.nonempty e)
  · exact (mem_append.mp he).elim (h.low e) fun he' => hlo.trans (h'.low e he')
  · exact (mem_append.mp he).elim (fun he' b hb => (h.high e he' mid rfl).trans (hhi b hb))
      (h'.high e)

theorem of_append (h : Fits lo hi (m ++ m')) : Fits lo hi m ∧ Fits lo hi m' := by
  have hasc := h.ascending
  rw [map_append, pairwise_append] at hasc
  exact ⟨⟨hasc.1, fun e he => h.nonempty e (mem_append_left _ he),
      fun e he => h.low e (mem_append_left _ he),
      fun e he => h.high e (mem_append_left _ he)⟩,
    ⟨hasc.2.1, fun e he => h.nonempty e (mem_append_right _ he),
      fun e he => h.low e (mem_append_right _ he),
      fun e he => h.high e (mem_append_right _ he)⟩⟩

theorem extend {vs : List α} (h : Fits lo hi m) (hvs : vs ≠ []) (hlo : lo ≤ k)
    (hhi : Below k hi) : Fits lo hi (extend m k vs) := by
  have hmem : ∀ e ∈ OrderedGroups.extend m k vs, e.1 = k ∧ e.2 ≠ [] ∨ e ∈ m := by
    intro e he
    have hasc := insertEntry_sorted (k := k) (v := (lookup k m).getD [] ++ vs) h.ascending
    have hget := (lookup_eq_some_iff (v := e.2) (hasc.imp fun h => ne_of_lt h)).mpr he
    rw [lookup_insertEntry] at hget
    by_cases hk : e.1 = k
    · rw [if_pos hk] at hget
      exact .inl ⟨hk, Option.some.inj hget ▸ append_ne_nil_of_right_ne_nil _ hvs⟩
    · rw [if_neg hk] at hget
      exact .inr (mem_of_lookup hget)
  refine ⟨insertEntry_sorted h.ascending, fun e he => ?_, fun e he => ?_, fun e he => ?_⟩
  · exact (hmem e he).elim (fun hk => hk.2) (h.nonempty e)
  · exact (hmem e he).elim (fun hk => hk.1 ▸ hlo) (h.low e)
  · exact (hmem e he).elim (fun hk => hk.1 ▸ hhi) (h.high e)

end Fits

theorem valuesAt_extend {m : Groups κ α} (hm : (m.map Prod.fst).Pairwise (· < ·)) (k k' : κ)
    (vs : List α) :
    valuesAt k' (extend m k vs) = valuesAt k' m ++ if k = k' then vs else [] := by
  have hasc := insertEntry_sorted (k := k) (v := (lookup k m).getD [] ++ vs) hm
  have hval := getD_lookup hasc k'
  rw [lookup_insertEntry] at hval
  refine hval.symm.trans ?_
  by_cases hk : k' = k
  · subst hk
    rw [if_pos rfl, if_pos rfl, getD_lookup hm]
    rfl
  · rw [if_neg hk, if_neg (Ne.symm hk), append_nil, getD_lookup hm]

/-- The values under their keys, added one by one. -/
def grouped (key : α → κ) (vs : List α) : Groups κ α :=
  vs.foldl (fun m v => extend m (key v) [v]) []

theorem extend_perm {m : Groups κ α} (hm : (m.map Prod.fst).Pairwise (· < ·)) (k : κ)
    (vs : List α) : ((extend m k vs).flatMap Prod.snd).Perm (m.flatMap Prod.snd ++ vs) := by
  rw [flatMap_def, flatMap_def]
  refine List.Perm.trans ?_ perm_append_comm
  unfold extend
  cases hl : lookup k m with
  | none => exact (values_insertEntry_fresh hl).flatten
  | some l =>
    have hperm := (values_insertEntry_replace (v := l ++ vs) hm hl).flatten
    rw [flatten_cons, flatten_cons, append_assoc] at hperm
    exact (perm_append_left_iff l).mp hperm

theorem grouped_perm (key : α → κ) (vs : List α) : ((grouped key vs).flatMap Prod.snd).Perm vs := by
  have hall : ∀ (vs : List α) (m : Groups κ α), (m.map Prod.fst).Pairwise (· < ·) →
      ((vs.foldl (fun m v => extend m (key v) [v]) m).flatMap Prod.snd).Perm
        (m.flatMap Prod.snd ++ vs) := by
    intro vs
    induction vs with
    | nil =>
      intro m _
      rw [append_nil]
      exact List.Perm.refl _
    | cons v vs ih =>
      intro m hm
      have hstep := ih (extend m (key v) [v]) (insertEntry_sorted hm)
      refine hstep.trans (((extend_perm hm (key v) [v]).append_right vs).trans ?_)
      rw [append_assoc, singleton_append]
  exact hall vs [] List.Pairwise.nil

/-- The lists with some values left out, and without the lists that have none left. -/
def filterGroups (p : α → Bool) (m : Groups κ α) : Groups κ α :=
  (m.map fun e => (e.1, e.2.filter p)).filter fun e => !e.2.isEmpty

theorem filterGroups_spec (p : α → Bool) {lo : κ} {hi : Option κ} {m : Groups κ α}
    (h : Fits lo hi m) :
    Fits lo hi (filterGroups p m) ∧ (∀ k, valuesAt k (filterGroups p m) = (valuesAt k m).filter p) ∧
      (filterGroups p m).flatMap Prod.snd = (m.flatMap Prod.snd).filter p := by
  induction m with
  | nil => exact ⟨h, fun k => rfl, rfl⟩
  | cons e m ih =>
    obtain ⟨hfits, hvals, hflat⟩ := ih h.tail
    have hkeys : ∀ e' ∈ filterGroups p m, e.1 < e'.1 := by
      intro e' he'
      obtain ⟨e'', he'', rfl⟩ := mem_map.mp (mem_of_mem_filter he')
      exact h.head_lt e'' he''
    by_cases hnone : e.2.filter p = []
    · have hskip : filterGroups p (e :: m) = filterGroups p m := by
        simp [filterGroups, hnone]
      rw [hskip]
      refine ⟨hfits, fun k => ?_, ?_⟩
      · rw [hvals k, valuesAt_cons, filter_append]
        by_cases hk : e.1 = k <;> simp [hk, hnone]
      · rw [hflat, flatMap_cons, filter_append, hnone, nil_append]
    · have hkeep : filterGroups p (e :: m) = (e.1, e.2.filter p) :: filterGroups p m := by
        simp [filterGroups, hnone]
      rw [hkeep]
      refine ⟨hfits.cons hnone (h.low e mem_cons_self) (h.high e mem_cons_self) hkeys,
        fun k => ?_, ?_⟩
      · rw [valuesAt_cons, hvals k, valuesAt_cons, filter_append]
        by_cases hk : e.1 = k <;> simp [hk]
      · rw [flatMap_cons, hflat, flatMap_cons, filter_append]

/-- Each list appended to the one of its key. -/
def extendAll (old new : Groups κ α) : Groups κ α :=
  new.foldl (fun m g => extend m g.1 g.2) old

/-- Both in key order, lists of one key joined. -/
def mergeGroups : Groups κ α → Groups κ α → Groups κ α
  | [], old => old
  | (k, vs) :: new, old =>
    let rest := old.dropWhile fun e => e.1 < k
    old.takeWhile (fun e => e.1 < k) ++ match rest with
      | (k', l) :: rest' =>
        if k' = k then (k, l ++ vs) :: mergeGroups new rest' else (k, vs) :: mergeGroups new rest
      | [] => (k, vs) :: mergeGroups new []

theorem extendAll_spec {lo : κ} {hi : Option κ} {old new : Groups κ α} (h : Fits lo hi old)
    (hnew : ∀ g ∈ new, g.2 ≠ [] ∧ lo ≤ g.1 ∧ Below g.1 hi) :
    Fits lo hi (extendAll old new) ∧
      ∀ k, valuesAt k (extendAll old new) = valuesAt k old ++ valuesAt k new := by
  induction new generalizing old with
  | nil => exact ⟨h, fun k => (append_nil _).symm⟩
  | cons g new ih =>
    obtain ⟨hne, hlo, hhi⟩ := hnew g mem_cons_self
    obtain ⟨hfits, hvals⟩ := ih (h.extend hne hlo hhi) fun g' hg' =>
      hnew g' (mem_cons_of_mem _ hg')
    refine ⟨hfits, fun k => ?_⟩
    have hstep : extendAll old (g :: new) = extendAll (extend old g.1 g.2) new := rfl
    rw [hstep, hvals k, valuesAt_extend h.ascending, valuesAt_cons, append_assoc]

theorem grouped_spec (key : α → κ) (vs : List α) {lo : κ} (hlo : ∀ v ∈ vs, lo ≤ key v) :
    Fits lo none (grouped key vs) ∧
      ∀ k, valuesAt k (grouped key vs) = vs.filter fun v => key v = k := by
  have hall : grouped key vs = extendAll [] (vs.map fun v => (key v, [v])) := by
    unfold grouped extendAll
    rw [foldl_map]
  obtain ⟨hfits, hvals⟩ := @extendAll_spec _ _ _ _ _ _ (vs.map fun v => (key v, [v]))
    (Fits.nil lo none) fun g hg => by
      obtain ⟨v, hv, rfl⟩ := mem_map.mp hg
      exact ⟨cons_ne_nil v [], hlo v hv, fun b hb => by cases hb⟩
  refine ⟨hall ▸ hfits, fun k => ?_⟩
  rw [hall, hvals k, valuesAt_nil, nil_append]
  clear hall hfits hvals hlo
  induction vs with
  | nil => rfl
  | cons v vs ih =>
    rw [map_cons, valuesAt_cons, filter_cons, ih]
    by_cases hk : key v = k <;> simp [hk]

theorem lookup_append_of_lt {before m : Groups κ α} (h : ∀ e ∈ before, e.1 < k) :
    lookup k (before ++ m) = lookup k m := by
  rw [lookup_append, lookup_of_forall_ne fun e he => ne_of_lt (h e he), Option.none_or]

theorem extend_append {before m : Groups κ α} (vs : List α)
    (h : ∀ e ∈ before, e.1 < k) : extend (before ++ m) k vs = before ++ extend m k vs := by
  unfold extend
  rw [lookup_append_of_lt h]
  induction before with
  | nil => rfl
  | cons e before ih =>
    have hlt := h e mem_cons_self
    have hrest := ih fun e' he' => h e' (mem_cons_of_mem _ he')
    rw [cons_append, insertEntry, if_neg (lt_asymm hlt), if_neg (ne_of_gt hlt), hrest]
    rfl

theorem extendAll_append {new before m : Groups κ α} (h : ∀ g ∈ new, ∀ e ∈ before, e.1 < g.1) :
    extendAll (before ++ m) new = before ++ extendAll m new := by
  induction new generalizing m with
  | nil => rfl
  | cons g new ih =>
    have hg := extend_append (m := m) g.2 (h g mem_cons_self)
    have hrest := ih (m := extend m g.1 g.2) fun g' hg' => h g' (mem_cons_of_mem _ hg')
    exact (congrArg (extendAll · new) hg).trans hrest

theorem mergeGroups_eq {new old : Groups κ α} (hold : (old.map Prod.fst).Pairwise (· < ·))
    (hnew : (new.map Prod.fst).Pairwise (· < ·)) : mergeGroups new old = extendAll old new := by
  induction new generalizing old with
  | nil => rfl
  | cons g new ih =>
    obtain ⟨k, vs⟩ := g
    obtain ⟨hlater, hnew'⟩ := pairwise_cons.mp hnew
    have hlt : ∀ e ∈ old.takeWhile (fun e => e.1 < k), e.1 < k := by
      intro e he
      simpa using mem_takeWhile_imp he
    have hsplit : old.takeWhile (fun e => e.1 < k) ++ old.dropWhile (fun e => e.1 < k) = old :=
      takeWhile_append_dropWhile
    -- the lists up to `k` are done, the later ones merge with the rest
    have hdone : ∀ {l : List α} {rest : Groups κ α},
        extend (old.dropWhile fun e => e.1 < k) k vs = (k, l) :: rest →
          (rest.map Prod.fst).Pairwise (· < ·) →
            old.takeWhile (fun e => e.1 < k) ++ (k, l) :: mergeGroups new rest =
              extendAll old ((k, vs) :: new) := by
      intro l rest hext hrest
      have hstep : extendAll old ((k, vs) :: new) = extendAll (extend old k vs) new := rfl
      have hfirst : extend old k vs = (old.takeWhile (fun e => e.1 < k) ++ [(k, l)]) ++ rest := by
        rw [append_assoc, singleton_append, ← hext, ← extend_append vs hlt, hsplit]
      rw [hstep, hfirst, extendAll_append, ih hrest hnew', append_assoc, singleton_append]
      intro g hg e he
      have hkg := hlater g.1 (mem_map_of_mem hg)
      rcases mem_append.mp he with he | he
      · exact (hlt e he).trans hkg
      · rw [mem_singleton.mp he]
        exact hkg
    unfold mergeGroups
    simp only
    have hrest : ((old.dropWhile fun e => e.1 < k).map Prod.fst).Pairwise (· < ·) :=
      hold.sublist ((dropWhile_sublist _).map _)
    cases hdrop : old.dropWhile (fun e => e.1 < k) with
    | nil =>
      refine hdone ?_ List.Pairwise.nil
      rw [hdrop]
      rfl
    | cons e rest =>
      obtain ⟨k', l⟩ := e
      rw [hdrop] at hrest
      obtain ⟨hmore, hrest'⟩ := pairwise_cons.mp hrest
      have hge : ¬ k' < k := by
        have hhead := head?_dropWhile_not (fun e : κ × List α => decide (e.1 < k)) old
        simpa [hdrop] using hhead
      simp only
      by_cases hk : k' = k
      · subst hk
        rw [if_pos rfl]
        refine hdone ?_ hrest'
        rw [hdrop]
        simp [extend, insertEntry, lookup]
      · rw [if_neg hk]
        have hkk : k < k' := lt_of_le_of_ne (not_lt.mp hge) (Ne.symm hk)
        refine hdone ?_ hrest
        have hnone : lookup k ((k', l) :: rest) = none := by
          refine lookup_of_forall_ne fun e he => ?_
          rcases mem_cons.mp he with rfl | he
          · exact hk
          · exact ne_of_gt (hkk.trans (hmore e.1 (mem_map_of_mem he)))
        rw [hdrop]
        unfold extend
        rw [hnone]
        simp [insertEntry, hkk]

abbrev Parts (κ α : Type*) := List (κ × Groups κ α)

def entries (parts : Parts κ α) : Groups κ α := parts.flatMap Prod.snd

/-- Maps of increasing key ranges, each with the least key it may hold. -/
inductive Ranged : κ → Option κ → Parts κ α → Prop where
  | last {lo hi m} : Below lo hi → Fits lo hi m → Ranged lo hi [(lo, m)]
  | cons {lo mid hi m parts} : lo < mid → Fits lo (some mid) m → Ranged mid hi parts →
      Ranged lo hi ((lo, m) :: parts)

def partOf (parts : Parts κ α) (k : κ) : ℕ :=
  ((parts.map Prod.fst).takeWhile fun s => s ≤ k).length - 1

namespace Ranged

variable {lo mid : κ} {hi : Option κ} {parts parts' : Parts κ α} {rest : Parts κ α}

theorem lt_bound (h : Ranged lo hi parts) : Below lo hi := by
  induction h with
  | last hlo _ => exact hlo
  | cons hlt _ _ ih => exact fun b hb => hlt.trans (ih b hb)

theorem entries_fits (h : Ranged lo hi parts) : Fits lo hi (entries parts) := by
  induction h with
  | last _ hm =>
    unfold entries
    rw [flatMap_singleton]
    exact hm
  | cons hlt hm hrest ih => exact hm.append ih (le_of_lt hlt) hrest.lt_bound

theorem append (h : Ranged lo (some mid) parts) (h' : Ranged mid hi parts') :
    Ranged lo hi (parts ++ parts') := by
  generalize hmid : some mid = b at h
  induction h with
  | last hlo hm =>
    subst hmid
    exact .cons (hlo mid rfl) hm h'
  | cons hlt hm _ ih => exact .cons hlt hm (ih hmid)

theorem exists_cons (h : Ranged lo hi parts) : ∃ m rest, parts = (lo, m) :: rest := by
  cases h with
  | last => exact ⟨_, _, rfl⟩
  | cons => exact ⟨_, _, rfl⟩

/-- A map whose keys start later may start earlier. -/
theorem lower {m : Groups κ α}
    (h : Ranged lo' hi ((lo', m) :: rest)) (hle : lo ≤ lo') : Ranged lo hi ((lo, m) :: rest) := by
  have hfits : ∀ {hi : Option κ}, Fits lo' hi m → Fits lo hi m := fun hm =>
    ⟨hm.ascending, hm.nonempty, fun e he => hle.trans (hm.low e he), hm.high⟩
  cases h with
  | last hlo hm => exact .last (fun b hb => hle.trans_lt (hlo b hb)) (hfits hm)
  | cons hlt hm hrest => exact .cons (hle.trans_lt hlt) (hfits hm) hrest

theorem partOf_cons_of_le {m m' : Groups κ α} (hlo : lo ≤ k)
    (hmid : mid ≤ k) : partOf ((lo, m) :: (mid, m') :: rest) k = partOf ((mid, m') :: rest) k + 1 := by
  simp [partOf, hlo, hmid]

theorem partOf_of_lt {m m' : Groups κ α} (hmid : k < mid) :
    partOf ((lo, m) :: (mid, m') :: rest) k = 0 := by
  by_cases hlo : lo ≤ k <;> simp [partOf, hlo, hmid]

theorem cutAt (h : Ranged lo hi parts) :
    ∃ cuts, parts.map Prod.fst = lo :: cuts ∧ CutAt lo cuts (parts.map Prod.snd) := by
  induction h with
  | last _ hm => exact ⟨[], rfl, .last hm.low⟩
  | cons hlt hm _ ih =>
    obtain ⟨cuts, hfst, hcut⟩ := ih
    exact ⟨_, congrArg _ hfst, .cons hlt.le (fun e he => ⟨hm.low e he, hm.high e he _ rfl⟩) hcut⟩

end Ranged

/-- The list at a key, looked for in the part of the key. -/
def getPart (parts : Parts κ α) (k : κ) : Option (List α) :=
  (parts[partOf parts k]?).bind fun p => lookup k p.2

/-- The entries with keys from `start` up to `last`, the key before `stop`. -/
def rangeParts (parts : Parts κ α) (start last stop : κ) : Groups κ α :=
  ((parts.drop (partOf parts start)).take (partOf parts last + 1 - partOf parts start)).flatMap
    fun p => p.2.filter fun e => start ≤ e.1 ∧ e.1 < stop

def extendPart (parts : Parts κ α) (k : κ) (vs : List α) : Parts κ α :=
  parts.modify (partOf parts k) fun p => (p.1, extend p.2 k vs)

section Reading

variable {lo : κ} {hi : Option κ} {parts : Parts κ α}

theorem getPart_eq (h : Ranged lo hi parts) (hk : lo ≤ k) :
    (getPart parts k).getD [] = valuesAt k (entries parts) := by
  obtain ⟨cuts, hfst, hcut⟩ := h.cutAt
  obtain ⟨-, -, m, hm, hlook, -⟩ := hcut.modify_spec (f := id) hk (fun _ _ he => .inr he)
    fun _ _ _ => rfl
  rw [← hfst, getElem?_map] at hm
  obtain ⟨p, hp, rfl⟩ := Option.map_eq_some_iff.mp hm
  rw [← getD_lookup h.entries_fits.ascending, getPart]
  show ((parts[CutAt.indexOf (parts.map Prod.fst) k]?).bind fun p => lookup k p.2).getD [] = _
  rw [hp, entries, flatMap_def, hlook]
  rfl

theorem rangeParts_eq (h : Ranged lo hi parts) {start last stop : κ} (hstart : lo ≤ start)
    (hle : start ≤ last) (hlast : ∀ k, last < k → stop ≤ k) :
    rangeParts parts start last stop =
      (entries parts).filter fun e => start ≤ e.1 ∧ e.1 < stop := by
  obtain ⟨cuts, hfst, hcut⟩ := h.cutAt
  have hbetween := hcut.filter_between hstart hle
    (p := fun e => decide (start ≤ e.1 ∧ e.1 < stop)) fun e he =>
      ⟨(of_decide_eq_true he).1, not_lt.mp fun hgt =>
        absurd (of_decide_eq_true he).2 (hlast e.1 hgt).not_gt⟩
  rw [← hfst, ← map_drop, ← map_take, ← flatMap_def, ← flatMap_def,
    filter_flatMap] at hbetween
  exact hbetween

theorem extendPart_spec (h : Ranged lo hi parts) (hk : lo ≤ k) (hhi : Below k hi)
    {vs : List α} (hvs : vs ≠ []) :
    Ranged lo hi (extendPart parts k vs) ∧ ∀ k', valuesAt k' (entries (extendPart parts k vs)) =
        valuesAt k' (entries parts) ++ if k = k' then vs else [] := by
  induction h with
  | @last lo hi m hlo hm =>
    have hzero : partOf [(lo, m)] k = 0 := by simp [partOf, hk]
    have hext : extendPart [(lo, m)] k vs = [(lo, extend m k vs)] := by
      unfold extendPart
      rw [hzero]
      rfl
    rw [hext]
    refine ⟨.last hlo (hm.extend hvs hk hhi), fun k' => ?_⟩
    simp [entries, valuesAt_extend hm.ascending]
  | @cons lo mid hi m rest hlt hm hrest ih =>
    obtain ⟨m', rest', rfl⟩ := hrest.exists_cons
    by_cases hmid : mid ≤ k
    · have hext : extendPart ((lo, m) :: (mid, m') :: rest') k vs =
          (lo, m) :: extendPart ((mid, m') :: rest') k vs := by
        unfold extendPart
        rw [Ranged.partOf_cons_of_le hk hmid]
        rfl
      rw [hext]
      obtain ⟨hranged, hvals⟩ := ih hmid hhi
      refine ⟨.cons hlt hm hranged, fun k' => ?_⟩
      have hv := hvals k'
      simp only [entries, flatMap_cons, valuesAt_append, append_assoc] at hv ⊢
      rw [hv]
    · have hext : extendPart ((lo, m) :: (mid, m') :: rest') k vs =
          (lo, extend m k vs) :: (mid, m') :: rest' := by
        unfold extendPart
        rw [Ranged.partOf_of_lt (not_le.mp hmid)]
        rfl
      rw [hext]
      have hbelow : Below k (some mid) := by
        intro b hb
        rw [← Option.some.inj hb]
        exact not_le.mp hmid
      refine ⟨.cons hlt (hm.extend hvs hk hbelow) hrest, fun k' => ?_⟩
      have hcons : ∀ m'' : Groups κ α, entries ((lo, m'') :: (mid, m') :: rest') =
          m'' ++ entries ((mid, m') :: rest') := fun m'' => rfl
      rw [hcons, hcons, valuesAt_append, valuesAt_append, valuesAt_extend hm.ascending]
      by_cases hkk : k = k'
      · subst hkk
        have hnil : valuesAt k (entries ((mid, m') :: rest')) = [] :=
          valuesAt_eq_nil fun e he =>
            ne_of_gt ((not_le.mp hmid).trans_le (hrest.entries_fits.low e he))
        rw [hnil, append_nil, append_nil]
      · rw [if_neg hkk, append_nil, append_nil]

end Reading

section Cutting

variable {lo : κ} {hi : Option κ} {m : Groups κ α}

/-- The entries below a key and those from it on. -/
def splitOff (m : Groups κ α) (k : κ) : Groups κ α × Groups κ α :=
  (m.filter fun e => e.1 < k, m.filter fun e => k ≤ e.1)

theorem splitOff_append (hm : (m.map Prod.fst).Pairwise (· < ·)) (k : κ) :
    (splitOff m k).1 ++ (splitOff m k).2 = m := by
  have hfront := front_of_lt (p := fun e : κ × List α => decide (e.1 < k))
    ((pairwise_map.mp hm).imp le_of_lt) fun _ => decide_eq_true_iff
  have happ := takeWhile_append_dropWhile (p := fun e : κ × List α => decide (e.1 < k)) (l := m)
  rw [takeWhile_eq_filter hfront, dropWhile_eq_filter hfront] at happ
  simpa only [splitOff, ← not_lt, decide_not] using happ

theorem Fits.splitOff_left (h : Fits lo hi m) (k : κ) : Fits lo (some k) (splitOff m k).1 := by
  have hf := h.filter fun e => decide (e.1 < k)
  refine ⟨hf.ascending, hf.nonempty, hf.low, fun e he b hb => ?_⟩
  rw [← Option.some.inj hb]
  exact of_decide_eq_true (mem_filter.mp he).2

theorem Fits.splitOff_right (h : Fits lo hi m) (k : κ) : Fits k hi (splitOff m k).2 := by
  have hf := h.filter fun e => decide (k ≤ e.1)
  exact ⟨hf.ascending, hf.nonempty, fun e he => of_decide_eq_true (mem_filter.mp he).2,
    hf.high⟩

/-- Parts of `n` entries, each starting at its first key. -/
def partsOf (n : ℕ) : Groups κ α → Parts κ α
  | [] => []
  | e :: m => (e.1, e :: m.take (n - 1)) :: partsOf n (m.drop (n - 1))
  termination_by m => m.length
  decreasing_by
    rw [length_cons, length_drop]
    omega

theorem partsOf_spec (n : ℕ) {m : Groups κ α} (h : Fits lo hi m)
    {rest : Groups κ α} (hm : m = e :: rest) :
    Ranged e.1 hi (partsOf n m) ∧ entries (partsOf n m) = m := by
  induction hlen : m.length using Nat.strong_induction_on generalizing lo m e rest with
  | _ len ih =>
    subst hm
    have hasc := pairwise_cons.mp h.ascending
    have hsplit : rest.take (n - 1) ++ rest.drop (n - 1) = rest := take_append_drop _ _
    have hfirst : Fits e.1 hi (e :: rest.take (n - 1)) := by
      have htake : Fits lo hi ((e :: rest.take (n - 1)) ++ rest.drop (n - 1)) := by
        rw [cons_append, hsplit]
        exact h
      have hf := htake.of_append.1
      refine ⟨hf.ascending, hf.nonempty, fun e' he' => ?_, hf.high⟩
      rcases mem_cons.mp he' with rfl | he'
      · exact le_refl _
      · exact le_of_lt (hasc.1 e'.1 (mem_map_of_mem (mem_of_mem_take he')))
    unfold partsOf
    cases hdrop : rest.drop (n - 1) with
    | nil =>
      have hall : rest.take (n - 1) = rest := by
        rw [hdrop, append_nil] at hsplit
        exact hsplit
      refine ⟨?_, ?_⟩
      · unfold partsOf
        exact .last (h.high e mem_cons_self) hfirst
      · unfold partsOf
        rw [hall]
        simp [entries]
    | cons e' rest' =>
      have hlater : Fits lo hi (e' :: rest') := by
        have hcut : Fits lo hi ((e :: rest.take (n - 1)) ++ e' :: rest') := by
          rw [← hdrop, cons_append, hsplit]
          exact h
        exact hcut.of_append.2
      have hshort : (e' :: rest').length < len := by
        rw [← hdrop, length_drop, ← hlen, length_cons]
        omega
      obtain ⟨hranged, hentries⟩ := ih _ hshort hlater rfl rfl
      have hpair : ∀ e'' ∈ e :: rest.take (n - 1), e''.1 < e'.1 := by
        have hasc' := h.ascending
        rw [← hsplit, hdrop, ← cons_append, map_append, pairwise_append] at hasc'
        exact fun e'' he'' => hasc'.2.2 e''.1 (mem_map_of_mem he'') e'.1 mem_cons_self
      refine ⟨.cons (hpair e mem_cons_self) ?_ hranged, ?_⟩
      · refine ⟨hfirst.ascending, hfirst.nonempty, hfirst.low, fun e'' he'' b hb => ?_⟩
        rw [← Option.some.inj hb]
        exact hpair e'' he''
      · have hcons : ∀ (p : κ × Groups κ α) ps, entries (p :: ps) = p.2 ++ entries ps :=
          fun p ps => rfl
        rw [hcons, hentries, cons_append, ← hdrop, hsplit]

def startAt (start : κ) : Parts κ α → Parts κ α
  | [] => []
  | (_, m) :: parts => (start, m) :: parts

theorem startAt_spec {parts : Parts κ α} (h : Ranged lo' hi parts) (hle : lo ≤ lo') :
    Ranged lo hi (startAt lo parts) ∧ entries (startAt lo parts) = entries parts := by
  obtain ⟨m, rest, rfl⟩ := h.exists_cons
  exact ⟨h.lower hle, rfl⟩

end Cutting

end OrderedGroups
