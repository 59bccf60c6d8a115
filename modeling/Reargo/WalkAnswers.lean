import Reargo.PlainWalks

/-!
# What a walk answers

A walk's checkpoints and its number of instructions give back its addresses: each question
is answered as the list of the addresses answers it, in any order of questions and at any
later state of the table. The last address is, too, unless the last checkpoint is past it.
-/
namespace WalkAnswers

open InsnTable SpanSummaries List Option

variable {facts : ℕ → Facts} {start : ℕ} {t t' : Table} {w : PlainWalk} {k : ℕ}

structure Located (facts : ℕ → Facts) (start : ℕ) (w : PlainWalk) : Prop where
  at_ : ∀ c ∈ w.checkpoints, c.1 = addrAt facts start c.2
  le : ∀ c ∈ w.checkpoints, c.2 ≤ w.len
  increasing : (w.checkpoints.map Prod.snd).Pairwise (· < ·)
  first : w.checkpoints = [] ∧ w.len = 0 ∨ w.checkpoints.head? = some (start, 0)

/-- The lengths of the walk's instructions can be read. -/
def Readable (facts : ℕ → Facts) (start : ℕ) (t : Table) (w : PlainWalk) : Prop :=
  ∀ i < w.len, t.length (addrAt facts start i) = some (facts (addrAt facts start i)).length

/-- A part listed before is the one that would be listed now. -/
def MemoOk (facts : ℕ → Facts) (w : PlainWalk) : Prop :=
  ∀ (k : ℕ) listed c, w.expanded[k]? = some (some listed) → w.checkpoints[k]? = some c →
    listed = some (addrsFrom facts c.1 (w.stop k - c.2))

section Parts

theorem Located.stop_le (h : Located facts start w) : w.stop k ≤ w.len := by
  unfold PlainWalk.stop
  cases hc : w.checkpoints[k + 1]? with
  | none => exact le_refl _
  | some c => exact h.le c (mem_of_getElem? hc)

theorem Located.le_stop (h : Located facts start w) {c : ℕ × ℕ}
    (hc : w.checkpoints[k]? = some c) : c.2 ≤ w.stop k := by
  unfold PlainWalk.stop
  cases hnext : w.checkpoints[k + 1]? with
  | none => exact h.le c (mem_of_getElem? hc)
  | some d =>
    obtain ⟨hk, rfl⟩ := List.getElem?_eq_some_iff.mp hc
    obtain ⟨hk', rfl⟩ := List.getElem?_eq_some_iff.mp hnext
    have hlt := pairwise_iff_getElem.mp h.increasing k (k + 1) (by simpa using hk)
      (by simpa using hk') (Nat.lt_succ_self k)
    simp only [getElem_map] at hlt
    exact hlt.le

theorem addrsFrom_split {i e n : ℕ} (hie : i ≤ e) (hen : e ≤ n) :
    addrsFrom facts (addrAt facts start i) (n - i) =
      addrsFrom facts (addrAt facts start i) (e - i) ++
        addrsFrom facts (addrAt facts start e) (n - e) := by
  have hsum : n - i = (e - i) + (n - e) := by omega
  rw [hsum, addrsFrom_add, ← addrAt_add, Nat.add_sub_of_le hie]

theorem mem_addrsFrom {addr n a : ℕ} :
    a ∈ addrsFrom facts addr n ↔ ∃ i < n, addrAt facts addr i = a := by
  simp only [addrsFrom, List.mem_map, mem_range]

theorem length_addrsFrom (facts : ℕ → Facts) (addr n : ℕ) : (addrsFrom facts addr n).length = n := by
  simp only [addrsFrom, length_map, List.length_range]

end Parts

section Each

variable {σ : Type}

def callWhile (f : σ → ℕ → σ × Bool) : List ℕ → σ → σ × Bool
  | [], s => (s, true)
  | a :: l, s =>
    match f s a with
    | (s, false) => (s, false)
    | (s, true) => callWhile f l s

theorem callWhile_append (f : σ → ℕ → σ × Bool) (l l' : List ℕ) (s : σ) : callWhile f (l ++ l') s =
      match callWhile f l s with
      | (s, true) => callWhile f l' s
      | (s, false) => (s, false) := by
  induction l generalizing s with
  | nil => rfl
  | cons a l ih =>
    simp only [cons_append, callWhile]
    obtain ⟨s', go⟩ := f s a
    cases go with
    | false => rfl
    | true => exact ih s'

theorem eachFrom_eq (f : σ → ℕ → σ × Bool) (n addr : ℕ) (s : σ)
    (hlen : ∀ i < n, t.length (addrAt facts addr i) = some (facts (addrAt facts addr i)).length) :
    PlainWalk.eachFrom t f n addr s = callWhile f (addrsFrom facts addr n) s := by
  induction n generalizing addr s with
  | zero => rfl
  | succ n ih =>
    have hfirst : t.length addr = some (facts addr).length := hlen 0 (Nat.succ_pos n)
    simp only [PlainWalk.eachFrom, addrsFrom_succ, callWhile, hfirst]
    obtain ⟨s', go⟩ := f s addr
    cases go with
    | false => rfl
    | true => exact ih _ s' fun i hi => hlen (i + 1) (Nat.succ_lt_succ hi)

theorem Readable.part (h : Readable facts start t w) {i n : ℕ} (hle : i + n ≤ w.len) :
    ∀ j < n, t.length (addrAt facts (addrAt facts start i) j) =
      some (facts (addrAt facts (addrAt facts start i) j)).length := by
  intro j hj
  rw [← addrAt_add]
  exact h (i + j) (by omega)

variable (h : Located facts start w) (hr : Readable facts start t w) (f : σ → ℕ → σ × Bool)

include h hr f

theorem eachPart_eq (rest : List (ℕ × ℕ)) (k : ℕ) (s : σ) (hrest : w.checkpoints.drop k = rest) :
    PlainWalk.eachPart t w f (rest.zipIdx k) s = (callWhile f (rest.head?.elim [] fun c =>
        addrsFrom facts (addrAt facts start c.2) (w.len - c.2)) s).1 := by
  induction rest generalizing k s with
  | nil => rfl
  | cons c rest ih =>
    have hc : w.checkpoints[k]? = some c := by
      rw [← head?_drop, hrest, head?_cons]
    have hnext : w.checkpoints.drop (k + 1) = rest := by
      rw [← tail_drop, hrest, tail_cons]
    have hstop : w.stop k = (rest.head?.map Prod.snd).getD w.len := by
      rw [PlainWalk.stop, ← head?_drop, hnext]
    have hle : c.2 ≤ w.stop k := h.le_stop hc
    have hlen : w.stop k ≤ w.len := h.stop_le
    have hafter : (rest.head?.elim [] fun c =>
        addrsFrom facts (addrAt facts start c.2) (w.len - c.2)) =
        addrsFrom facts (addrAt facts start (w.stop k)) (w.len - w.stop k) := by
      rw [hstop]
      cases rest with
      | nil => simp only [List.head?_nil, elim_none, map_none, getD_none, Nat.sub_self]; rfl
      | cons d rest => rfl
    have hpart := hr.part (i := c.2) (n := w.stop k - c.2) (by omega)
    simp only [zipIdx_cons, PlainWalk.eachPart, List.head?_cons, elim_some]
    rw [addrsFrom_split hle hlen, callWhile_append, h.at_ c (mem_of_getElem? hc),
      eachFrom_eq f _ _ s hpart]
    obtain ⟨s', go⟩ := callWhile f (addrsFrom facts (addrAt facts start c.2) (w.stop k - c.2)) s
    cases go with
    | false => rfl
    | true =>
      simp only
      rw [ih (k + 1) s' hnext, hafter]

theorem each_eq (s : σ) : w.each t f s = (callWhile f (addrsFrom facts start w.len) s).1 := by
  unfold PlainWalk.each
  rw [eachPart_eq h hr f w.checkpoints 0 s rfl]
  rcases h.first with ⟨hnil, hzero⟩ | hhead
  · rw [hnil, hzero]
    rfl
  · rw [hhead]
    rfl

end Each

section IndexOf

theorem position_eq_some {addr n a i : ℕ} :
    PlainWalk.position (addrsFrom facts addr n) a = some i ↔ i < n ∧ addrAt facts addr i = a := by
  have hnodup : (addrsFrom facts addr n).Nodup :=
    nodup_range.map (addrAt_strictMono facts addr).injective
  unfold PlainWalk.position
  constructor
  · intro hsome
    split at hsome
    next hmem =>
      cases hsome
      have hlt := idxOf_lt_length_of_mem hmem
      have hget := getElem_idxOf hlt
      rw [length_addrsFrom] at hlt
      simp only [addrsFrom, getElem_map, getElem_range] at hget
      exact ⟨hlt, hget⟩
    · cases hsome
  · rintro ⟨hlt, rfl⟩
    rw [if_pos (mem_addrsFrom.mpr ⟨i, hlt, rfl⟩)]
    have hlt' : i < (addrsFrom facts addr n).length := by rwa [length_addrsFrom]
    have hget : (addrsFrom facts addr n)[i] = addrAt facts addr i := by
      simp only [addrsFrom, getElem_map, getElem_range]
    rw [← hget, hnodup.idxOf_getElem i hlt']

theorem expandFrom_eq (n addr : ℕ)
    (hlen : ∀ i < n, t.length (addrAt facts addr i) = some (facts (addrAt facts addr i)).length) :
    PlainWalk.expandFrom t n addr = some (addrsFrom facts addr n) := by
  induction n generalizing addr with
  | zero => rfl
  | succ n ih =>
    have hfirst : t.length addr = some (facts addr).length := hlen 0 (Nat.succ_pos n)
    have hrest := ih (addr + (facts addr).length) fun i hi => hlen (i + 1) (Nat.succ_lt_succ hi)
    simp only [PlainWalk.expandFrom, hfirst, hrest, addrsFrom_succ, bind_eq_bind, bind_some]
    rfl

theorem expand_eq (h : Located facts start w) (hr : Readable facts start t w) {c : ℕ × ℕ}
    (hc : w.checkpoints[k]? = some c) :
    w.expand t k = some (addrsFrom facts c.1 (w.stop k - c.2)) := by
  have hle := h.le_stop hc
  have hlen := h.stop_le (k := k)
  have hpart := hr.part (i := c.2) (n := w.stop k - c.2) (by omega)
  rw [← h.at_ c (mem_of_getElem? hc)] at hpart
  simp only [PlainWalk.expand, hc]
  exact expandFrom_eq _ _ hpart

/-- The last element a prefix test lets through. -/
theorem takeWhile_length {α : Type} {p : α → Bool} {l : List α}
    (h : (l.takeWhile p).length = k + 1) :
    ∃ c, l[k]? = some c ∧ p c = true ∧ ∀ d, l[k + 1]? = some d → p d = false := by
  induction l generalizing k with
  | nil => cases h
  | cons a l ih =>
    cases hp : p a with
    | false => simp only [takeWhile_cons, hp, Bool.false_eq_true, if_false, length_nil,
        reduceCtorEq] at h
    | true =>
      simp only [takeWhile_cons, hp, if_true, length_cons, Nat.succ.injEq] at h
      cases k with
      | zero =>
        refine ⟨a, rfl, hp, fun d hd => ?_⟩
        cases l with
        | nil => cases hd
        | cons b l =>
          cases hd
          by_contra hne
          simp only [takeWhile_cons, Bool.not_eq_false _ ▸ hne, if_true, length_cons,
            reduceCtorEq] at h
      | succ k => exact ih h

theorem takeWhile_none {α : Type} {p : α → Bool} {l : List α} (h : (l.takeWhile p).length = 0) :
    ∀ c, l.head? = some c → p c = false := by
  intro c hc
  cases l with
  | nil => cases hc
  | cons a l =>
    cases hc
    by_contra hne
    simp only [takeWhile_cons, Bool.not_eq_false _ ▸ hne, if_true, length_cons, reduceCtorEq] at h

theorem position_part {i e n a : ℕ} (hen : e ≤ n)
    (hge : addrAt facts start i ≤ a) (hlt : e = n ∨ a < addrAt facts start e) :
    (PlainWalk.position (addrsFrom facts (addrAt facts start i) (e - i)) a).map (i + ·) =
      PlainWalk.position (addrsFrom facts start n) a := by
  have hmono := addrAt_strictMono facts start
  apply Option.ext
  intro j
  simp only [map_eq_some_iff, position_eq_some]
  constructor
  · rintro ⟨j, ⟨hj, rfl⟩, rfl⟩
    exact ⟨by omega, addrAt_add start i j⟩
  · rintro ⟨hj, rfl⟩
    have hij : i ≤ j := hmono.le_iff_le.mp hge
    have hje : j < e := by
      rcases hlt with rfl | hlt
      · exact hj
      · exact hmono.lt_iff_lt.mp hlt
    refine ⟨j - i, ⟨by omega, ?_⟩, Nat.add_sub_of_le hij⟩
    rw [← addrAt_add, Nat.add_sub_of_le hij]

theorem indexOf_spec (h : Located facts start w) (hr : Readable facts start t w)
    (hmemo : MemoOk facts w) (a : ℕ) :
    (w.indexOf t a).1 = PlainWalk.position (addrsFrom facts start w.len) a ∧
      MemoOk facts (w.indexOf t a).2 ∧ (w.indexOf t a).2.checkpoints = w.checkpoints ∧
      (w.indexOf t a).2.len = w.len := by
  unfold PlainWalk.indexOf
  split
  next hzero =>
    refine ⟨?_, hmemo, rfl, rfl⟩
    symm
    rcases h.first with ⟨-, hlen⟩ | hhead
    · rw [hlen]
      rfl
    · have hlt := takeWhile_none hzero _ hhead
      simp only [decide_eq_false_iff_not, not_le] at hlt
      rw [PlainWalk.position, if_neg]
      rw [mem_addrsFrom]
      rintro ⟨i, -, rfl⟩
      have hmono := (addrAt_strictMono facts start).monotone (Nat.zero_le i)
      exact absurd hmono (Nat.not_le.mpr hlt)
  next k hk =>
    obtain ⟨c, hc, hle, hnext⟩ := takeWhile_length hk
    have hlisted : (w.expanded[k]?.join).getD (w.expand t k) =
        some (addrsFrom facts c.1 (w.stop k - c.2)) := by
      cases hold : w.expanded[k]? with
      | none => exact expand_eq h hr hc
      | some old =>
        cases old with
        | none => exact expand_eq h hr hc
        | some listed => exact hmemo k listed c hold hc
    simp only [hlisted, hc]
    refine ⟨?_, ?_, trivial, trivial⟩
    · rw [h.at_ c (mem_of_getElem? hc)] at hle ⊢
      simp only [decide_eq_true_eq] at hle
      apply position_part h.stop_le hle
      unfold PlainWalk.stop
      cases hd : w.checkpoints[k + 1]? with
      | none => exact .inl rfl
      | some d =>
        have hlt := hnext d hd
        rw [decide_eq_false_iff_not, not_le, h.at_ d (mem_of_getElem? hd)] at hlt
        exact .inr hlt
    · intro k' listed c' hold hc'
      simp only [getElem?_set] at hold
      split at hold
      next heq =>
        subst heq
        split at hold
        · cases hold
          rw [hc] at hc'
          cases hc'
          rfl
        · cases hold
      · exact hmemo k' listed c' hold hc'

end IndexOf

section Last

theorem lastFrom_eq (n addr : ℕ)
    (hlen : ∀ i < n, t.length (addrAt facts addr i) = some (facts (addrAt facts addr i)).length) :
    PlainWalk.lastFrom t n addr = some (addrAt facts addr n) := by
  induction n generalizing addr with
  | zero => rfl
  | succ n ih =>
    have hfirst : t.length addr = some (facts addr).length := hlen 0 (Nat.succ_pos n)
    simp only [PlainWalk.lastFrom, hfirst, bind_some]
    exact ih _ fun i hi => hlen (i + 1) (Nat.succ_lt_succ hi)

theorem getLast?_addrsFrom (addr n : ℕ) :
    (addrsFrom facts addr (n + 1)).getLast? = some (addrAt facts addr n) := by
  simp only [addrsFrom, range_succ, map_append, map_cons, map_nil,
    getLast?_append, getLast?_singleton, some_or]

theorem last_eq_iff (h : Located facts start w) (hr : Readable facts start t w) :
    w.last t = (addrsFrom facts start w.len).getLast? ↔
      (0 < w.len → ∀ c, w.checkpoints.getLast? = some c → c.2 < w.len) := by
  cases hlen : w.len with
  | zero =>
    simp only [lt_irrefl, false_implies, iff_true]
    unfold PlainWalk.last
    split
    · rfl
    next addr i hc =>
      simp only [hlen, lt_irrefl, if_false, bind_fun_none]
      rfl
  | succ n =>
    simp only [Nat.succ_pos, true_implies, getLast?_addrsFrom]
    unfold PlainWalk.last
    split
    next hnone =>
      rcases h.first with ⟨-, hzero⟩ | hhead
      · rw [hlen] at hzero
        cases hzero
      · rw [getLast?_eq_none_iff.mp hnone] at hhead
        cases hhead
    next addr i hc =>
      have hmem := mem_of_getLast? hc
      have hle := h.le _ hmem
      have haddr : addr = addrAt facts start i := h.at_ _ hmem
      simp only [hlen, hc, some.injEq, forall_eq'] at hle ⊢
      have hpart := hr.part (i := i) (n := n + 1 - (i + 1)) (by omega)
      rw [haddr, lastFrom_eq _ _ hpart, ← addrAt_add]
      simp only [bind_some, Nat.succ_pos, if_true, some.injEq,
        (addrAt_strictMono facts start).injective.eq_iff]
      omega

end Last

end WalkAnswers
