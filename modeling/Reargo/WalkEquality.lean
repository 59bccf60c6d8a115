import Reargo.WalkAnswers

/-!
# Walks equal to plain ranges

At every table that calls reach, a walk over spans is refused when the plain range is, and
else answers as its list does. The one exception is the walk's last address, where a walk
ends at a failed instruction that is the first of its region.
-/
namespace WalkEquality

open InsnTable SpanSummaries SpanTables PlainWalks WalkAnswers Option

/-- Any sequence of calls, of lifters with and without the parity flag. -/
inductive Calls (facts : ℕ → Facts) : Table → Table → Prop where
  | refl (t : Table) : Calls facts t t
  | walk {t t' : Table} (parity : Bool) (start count : ℕ) (relift : Bool) (h : Calls facts t t') :
      Calls facts t (plainWalk facts parity t' start count relift).2
  | range {t t' : Table} (parity : Bool) (start count : ℕ) (h : Calls facts t t') :
      Calls facts t (plainRange facts parity t' start count).2

inductive Asked (facts : ℕ → Facts) (t : Table) (w : PlainWalk) : PlainWalk → Prop where
  | refl : Asked facts t w w
  | ask {w' : PlainWalk} {t' : Table} (a : ℕ) (h : Asked facts t w w') (ht : Calls facts t t') :
      Asked facts t w (w'.indexOf t' a).2

structure Lists (facts : ℕ → Facts) (t : Table) (w : PlainWalk) (addrs : List ℕ) : Prop where
  len : w.len = addrs.length
  isEmpty : w.isEmpty = addrs.isEmpty
  first : w.first = addrs.head?
  each : ∀ t', Calls facts t t' → ∀ (σ : Type) (f : σ → ℕ → σ × Bool) (s : σ),
    w.each t' f s = (callWhile f addrs s).1
  indexOf : ∀ w', Asked facts t w w' → ∀ t', Calls facts t t' → ∀ a,
    (w'.indexOf t' a).1 = PlainWalk.position addrs a

/-- Without `relift`: the plain range, the last address included. -/
def EqualsRange (facts : ℕ → Facts) (parity : Bool) (t : Table) (start count : ℕ) : Prop :=
  Option.Rel (fun w addrs => Lists facts (plainWalk facts parity t start count false).2 w addrs ∧
      ∀ t', Calls facts (plainWalk facts parity t start count false).2 t' →
        w.last t' = addrs.getLast?)
    (plainWalk facts parity t start count false).1 (plainRange facts parity t start count).1

def rangeEnd (facts : ℕ → Facts) (parity : Bool) (t : Table) (start count : ℕ) : End :=
  (walkFrom facts t.base t.limit parity count start none false).2

structure MarksPf (facts : ℕ → Facts) (parity : Bool) (t : Table) (start count : ℕ) : Prop where
  accepts : ∀ check, (plainRange facts check t start count).1.isSome =
    (rangeEnd facts check t start count).accepted
  refuses : (plainWalk facts parity t start count true).1 = none ↔
    rangeEnd facts false t start count = .x87 ∨ rangeEnd facts false t start count = .outside
  lists : ∀ w, (plainWalk facts parity t start count true).1 = some w →
    ∃ addrs, (plainRange facts false t start count).1 = some addrs ∧
      Lists facts (plainWalk facts parity t start count true).2 w addrs
  needsPf : ∀ w, (plainWalk facts parity t start count true).1 = some w →
    (w.needsPf = true ↔ rangeEnd facts parity t start count = .pf)

/-- After at least one instruction a failed one is met, the first of its region. -/
def FailsAtRegionStart (facts : ℕ → Facts) (base limit : ℕ) (parity : Bool) (start count : ℕ) :
    Prop :=
  ∃ k, 0 < k ∧ walkFrom facts base limit parity count start none false =
      (addrsFrom facts start k, .failed) ∧
    addrAt facts start (k - 1) / spanBytes ≠ addrAt facts start k / spanBytes

variable {facts : ℕ → Facts} {base limit start count : ℕ} {parity relift : Bool} {t t' : Table}
  {w : PlainWalk} {e : End}

section Ends

inductive EndsAt (facts : ℕ → Facts) (start : ℕ) (w : PlainWalk) : End → Prop where
  | full (h : PointsBelow facts start w.checkpoints w.len) : EndsAt facts start w .full
  | failed {k : ℕ} (h : Inside facts start w.checkpoints k w.len)
      (hlt : addrAt facts start w.len < boundary (addrAt facts start k)) :
      EndsAt facts start w .failed

theorem EndsAt.accepted (h : EndsAt facts start w e) : e.accepted = true := by
  cases h with
  | full h => rfl
  | failed h hlt => rfl

theorem PointsBelow.located (h : PointsBelow facts start w.checkpoints w.len) :
    Located facts start w :=
  ⟨h.at_, fun c hc => (h.below c hc).le, h.increasing, h.first⟩

theorem Inside.located {k : ℕ} (h : Inside facts start w.checkpoints k w.len) :
    Located facts start w := by
  have hone : Inside facts start w.checkpoints k (k + 1) := by
    refine ⟨Nat.le_succ k, h.points, h.across, fun i hki hi => ?_⟩
    rw [le_antisymm (Nat.lt_succ_iff.mp hi) hki]
  have hbelow := hone.below (Nat.lt_succ_self k)
  refine ⟨hbelow.at_, fun c hc => ?_, hbelow.increasing, ?_⟩
  · exact (Nat.lt_succ_iff.mp (hbelow.below c hc)).trans h.le
  · rcases hbelow.first with ⟨-, hzero⟩ | hhead
    · cases hzero
    · exact .inr hhead

theorem EndsAt.located (h : EndsAt facts start w e) : Located facts start w := by
  cases h with
  | full h => exact PointsBelow.located h
  | failed h hlt => exact Inside.located h

theorem EndsAt.last_iff (h : EndsAt facts start w e) :
    (0 < w.len → ∀ c, w.checkpoints.getLast? = some c → c.2 < w.len) ↔ ¬ (e = .failed ∧ 0 < w.len ∧
        addrAt facts start (w.len - 1) / spanBytes ≠ addrAt facts start w.len / spanBytes) := by
  cases h with
  | full h =>
    constructor
    · intro _ hcond
      cases hcond.1
    · exact fun _ _ c hc => h.below c (List.mem_of_getLast? hc)
  | @failed k h hlt =>
    rcases Nat.lt_or_eq_of_le h.le with hk | hk
    · constructor
      · rintro - ⟨-, -, hne⟩
        apply hne
        have hprev := h.same (w.len - 1) (Nat.le_sub_one_of_lt hk) (Nat.sub_one_lt_of_lt hk)
        have hmono := (addrAt_strictMono facts start).monotone h.le
        exact hprev.trans (div_boundary hmono hlt).symm
      · exact fun _ _ c hc => (h.below hk).below c (List.mem_of_getLast? hc)
    · obtain ⟨front, -, hpoints⟩ := h.points
      have hlast : w.checkpoints.getLast? = some (addrAt facts start k, k) := by
        rw [hpoints, List.getLast?_append, List.getLast?_singleton, some_or]
      simp only [hlast, some.injEq, forall_eq', ← hk, lt_irrefl, imp_false, true_and]
      constructor
      · exact fun hzero hcond => hzero hcond.1
      · exact fun hcond hpos => hcond ⟨hpos, h.across hpos⟩

end Ends

section Walks

structure Walked (facts : ℕ → Facts) (t : Table) (start count : ℕ) (parity relift : Bool)
    (t' : Table) (w : PlainWalk) (e : End) : Prop where
  ends : EndsAt facts start w e
  known : ∀ i < w.len, (t'.cell (addrAt facts start i)).isSome
  fresh : MemoOk facts w
  total_eq : ∀ check, (check = true → parity = true ∧ w.needsPf = false) →
    total facts t.base t.limit start count check = (addrsFrom facts start w.len, e)
  relifted : w.needsPf = true →
    relift = true ∧ parity = true ∧ (total facts t.base t.limit start count true).2 = .pf

theorem memoOk_new (points : List (ℕ × ℕ)) (len : ℕ) (needsPf : Bool) :
    MemoOk facts (PlainWalk.new points len needsPf) := by
  intro k listed c hold
  simp only [PlainWalk.new, List.getElem?_map, map_eq_some_iff, reduceCtorEq, and_false,
    exists_false] at hold

theorem plainWalk_spec (parity relift : Bool) (start count : ℕ) (h : TableOk facts t) :
    TableOk facts (plainWalk facts parity t start count relift).2 ∧
      Grows t (plainWalk facts parity t start count relift).2 ∧
      ((plainWalk facts parity t start count relift).1 = none →
        (total facts t.base t.limit start count (parity && !relift)).2.accepted = false) ∧
      ∀ w, (plainWalk facts parity t start count relift).1 = some w →
        ∃ e, Walked facts t start count parity relift
          (plainWalk facts parity t start count relift).2 w e := by
  have hstart : WalkerOk facts t.base t.limit start count parity relift
      ⟨t, start, 0, none, parity, false, false, []⟩ :=
    ⟨h, rfl, rfl, nofun, rfl, Nat.zero_le _, rfl, fun _ => rfl, (Bool.and_true _).symm, nofun,
      nofun⟩
  have hwalk := walkLoop_spec count _ hstart ⟨nofun, nofun, .nil, .inl ⟨rfl, rfl⟩⟩
    (fun hpos => absurd hpos (Nat.lt_irrefl 0)) (Nat.le_add_left _ _)
  unfold plainWalk
  cases ho : walkLoop facts relift start count count
      ⟨t, start, 0, none, parity, false, false, []⟩ with
  | more s =>
    rw [ho] at hwalk
    exact hwalk.elim
  | refused t' =>
    rw [ho] at hwalk
    exact ⟨hwalk.1, hwalk.2.1, fun _ => hwalk.2.2, nofun⟩
  | done s =>
    rw [ho] at hwalk
    obtain ⟨hs, hg, hend⟩ := hwalk
    refine ⟨hs.table, hg, nofun, fun w hw => ?_⟩
    cases hw
    have hcheck : ∀ check, (check = true → parity = true ∧ s.needsPf = false) →
        check = true → s.checkPf = true := by
      intro check hc htrue
      rw [hs.flags, (hc htrue).1, (hc htrue).2]
      rfl
    rcases hend with ⟨hidx, hpoints⟩ | ⟨-, ⟨k, hin, hlt⟩, htotal⟩
    · refine ⟨.full, ⟨.full ?_, hs.known, memoOk_new _ _ _, fun check hc => ?_, hs.relifted⟩⟩
      · simp only [PlainWalk.new, hidx]
        exact hpoints
      · obtain ⟨w', hrest⟩ := hs.rest check (hcheck check hc)
        rw [hrest, hidx, Nat.sub_self]
        exact congrArg (·, End.full) (List.append_nil _)
    · exact ⟨.failed, ⟨.failed hin hlt, hs.known, memoOk_new _ _ _,
        fun check hc => htotal check (hcheck check hc), hs.relifted⟩⟩

theorem Calls.spec (h : Calls facts t t') (ht : TableOk facts t) :
    TableOk facts t' ∧ Grows t t' := by
  induction h with
  | refl => exact ⟨ht, .refl _⟩
  | walk parity start count relift _ ih =>
    obtain ⟨hok, hg, -, -⟩ := plainWalk_spec parity relift start count ih.1
    exact ⟨hok, ih.2.trans hg⟩
  | range parity start count _ ih =>
    obtain ⟨-, hok, hg⟩ := plainRange_spec parity start count ih.1
    exact ⟨hok, ih.2.trans hg⟩

theorem readable (hknown : ∀ i < w.len, (t.cell (addrAt facts start i)).isSome)
    (ht : TableOk facts t) (h : Calls facts t t') : Readable facts start t' w := by
  obtain ⟨hok, hg⟩ := h.spec ht
  exact fun i hi => length_eq hok (hg.cells _ (hknown i hi))

theorem Asked.spec {w' : PlainWalk} (h : Asked facts t w w') (ht : TableOk facts t)
    (hat : Located facts start w) (hmemo : MemoOk facts w)
    (hknown : ∀ i < w.len, (t.cell (addrAt facts start i)).isSome) :
    Located facts start w' ∧ MemoOk facts w' ∧ w'.len = w.len := by
  induction h with
  | refl => exact ⟨hat, hmemo, rfl⟩
  | @ask w' t' a _ hcalls ih =>
    obtain ⟨hat', hmemo', hlen'⟩ := ih
    have hr : Readable facts start t' w' := readable (by rwa [hlen']) ht hcalls
    obtain ⟨-, hmemo'', hpoints, hlen''⟩ := indexOf_spec hat' hr hmemo' a
    refine ⟨⟨?_, ?_, ?_, ?_⟩, hmemo'', hlen''.trans hlen'⟩
    · rw [hpoints]
      exact hat'.at_
    · rw [hpoints, hlen'']
      exact hat'.le
    · rw [hpoints]
      exact hat'.increasing
    · rw [hpoints, hlen'']
      exact hat'.first

theorem lists_of_walked (ht : TableOk facts t')
    (h : Walked facts t start count parity relift t' w e) :
    Lists facts t' w (addrsFrom facts start w.len) := by
  have hat := h.ends.located
  refine ⟨(length_addrsFrom _ _ _).symm, ?_, ?_, fun t'' hcalls σ f s => ?_,
    fun w' hasked t'' hcalls a => ?_⟩
  · cases hlen : w.len with
    | zero => simp only [PlainWalk.isEmpty, hlen]; rfl
    | succ n => simp only [PlainWalk.isEmpty, hlen, addrsFrom_succ]; rfl
  · rcases hat.first with ⟨-, hzero⟩ | hhead
    · simp only [PlainWalk.first, hzero]
      rfl
    · cases hlen : w.len with
      | zero => simp only [PlainWalk.first, hlen]; rfl
      | succ n =>
        simp only [PlainWalk.first, hlen, Nat.succ_pos, if_true, hhead, addrsFrom_succ]
        rfl
  · exact each_eq hat (readable h.known ht hcalls) f s
  · obtain ⟨hat', hmemo', hlen'⟩ := hasked.spec ht hat h.fresh h.known
    have hr : Readable facts start t'' w' := readable (by rw [hlen']; exact h.known) ht hcalls
    rw [(indexOf_spec hat' hr hmemo' a).1, hlen']

end Walks

section Ranges

theorem walkFrom_ne_pf (facts : ℕ → Facts) (base limit n addr : ℕ) (held : Option ℕ) (w : Bool) :
    (walkFrom facts base limit false n addr held w).2 ≠ .pf := by
  induction n generalizing addr held w with
  | zero =>
    intro h
    cases h
  | succ n ih =>
    unfold walkFrom
    split
    · split
      · intro h
        cases h
      · split
        · intro h
          cases h
        · exact ih _ _ _
    · intro h
      cases h

theorem ranged_isSome (addrs : List ℕ) (rest : List ℕ × End) :
    (ranged addrs rest).isSome = rest.2.accepted := by
  obtain ⟨l, e⟩ := rest
  cases e <;> rfl

theorem ranged_accepted {l : List ℕ} (h : e.accepted = true) : ranged [] (l, e) = some l := by
  cases e with
  | full => rfl
  | failed => rfl
  | x87 => cases h
  | pf => cases h
  | outside => cases h

theorem marksPf (ht : TableOk facts t) : MarksPf facts parity t start count := by
  obtain ⟨hok, hg, hnone, hsome⟩ := plainWalk_spec parity true start count ht
  have hrange : ∀ check, (plainRange facts check t start count).1 =
      ranged [] (total facts t.base t.limit start count check) :=
    fun check => (plainRange_spec check start count ht).1
  refine ⟨fun check => ?_, ⟨fun hw => ?_, fun hend => ?_⟩, fun w hw => ?_, fun w hw => ?_⟩
  · rw [hrange, ranged_isSome]
    rfl
  · have hrefused := hnone hw
    have hne := walkFrom_ne_pf facts t.base t.limit count start none false
    rw [Bool.not_true, Bool.and_false] at hrefused
    unfold total at hrefused
    unfold rangeEnd
    cases hcase : (walkFrom facts t.base t.limit false count start none false).2 with
    | x87 => exact .inl rfl
    | outside => exact .inr rfl
    | pf => exact absurd hcase hne
    | full =>
      rw [hcase] at hrefused
      cases hrefused
    | failed =>
      rw [hcase] at hrefused
      cases hrefused
  · by_contra hw
    obtain ⟨w, hw⟩ := ne_none_iff_exists'.mp hw
    obtain ⟨e, h⟩ := hsome w hw
    have haccepted := h.ends.accepted
    have heq : rangeEnd facts false t start count = e :=
      congrArg Prod.snd (h.total_eq false nofun)
    rw [heq] at hend
    rcases hend with rfl | rfl
    · cases haccepted
    · cases haccepted
  · obtain ⟨e, h⟩ := hsome w hw
    refine ⟨addrsFrom facts start w.len, ?_, lists_of_walked hok h⟩
    rw [hrange, h.total_eq false nofun, ranged_accepted h.ends.accepted]
  · obtain ⟨e, h⟩ := hsome w hw
    constructor
    · intro hneeds
      obtain ⟨-, rfl, hend⟩ := h.relifted hneeds
      exact hend
    · intro hend
      by_contra hneeds
      rw [Bool.not_eq_true] at hneeds
      have heq : rangeEnd facts parity t start count = e :=
        congrArg Prod.snd (h.total_eq parity fun hp => ⟨hp, hneeds⟩)
      have haccepted := h.ends.accepted
      rw [← heq, hend] at haccepted
      cases haccepted

theorem equalsRange_iff (parity : Bool) (start count : ℕ) (ht : TableOk facts t) :
    EqualsRange facts parity t start count ↔
      ¬ FailsAtRegionStart facts t.base t.limit parity start count := by
  obtain ⟨hok, -, hnone, hsome⟩ := plainWalk_spec parity false start count ht
  have hrange : (plainRange facts parity t start count).1 =
      ranged [] (total facts t.base t.limit start count parity) :=
    (plainRange_spec parity start count ht).1
  unfold EqualsRange
  obtain hw | ⟨w, hw⟩ := eq_none_or_eq_some (plainWalk facts parity t start count false).1
  · have hrefused := hnone hw
    rw [Bool.not_false, Bool.and_true] at hrefused
    have hempty : (plainRange facts parity t start count).1 = none := by
      rw [← isNone_iff_eq_none, ← not_isSome, hrange, ranged_isSome, hrefused]
      rfl
    rw [hw, hempty]
    refine ⟨?_, fun _ => .none⟩
    rintro - ⟨k, -, hend, -⟩
    unfold total at hrefused
    rw [hend] at hrefused
    cases hrefused
  · obtain ⟨e, h⟩ := hsome w hw
    have hneeds : w.needsPf = false := by
      cases hn : w.needsPf with
      | false => rfl
      | true => cases (h.relifted hn).1
    have htotal := h.total_eq parity fun hp => ⟨hp, hneeds⟩
    have hlists := lists_of_walked hok h
    have hlast : ∀ t', Calls facts (plainWalk facts parity t start count false).2 t' →
        (w.last t' = (addrsFrom facts start w.len).getLast? ↔ ¬ (e = .failed ∧ 0 < w.len ∧
            addrAt facts start (w.len - 1) / spanBytes ≠ addrAt facts start w.len / spanBytes)) :=
      fun t' hcalls => (last_eq_iff h.ends.located (readable h.known hok hcalls)).trans
        h.ends.last_iff
    have hfails : FailsAtRegionStart facts t.base t.limit parity start count ↔
        e = .failed ∧ 0 < w.len ∧ addrAt facts start (w.len - 1) / spanBytes ≠
          addrAt facts start w.len / spanBytes := by
      unfold FailsAtRegionStart
      rw [show walkFrom facts t.base t.limit parity count start none false =
        (addrsFrom facts start w.len, e) from htotal]
      constructor
      · rintro ⟨k, hpos, heq, hne⟩
        have hlen : w.len = k := by
          rw [← length_addrsFrom facts start w.len, (Prod.mk.inj heq).1, length_addrsFrom]
        rw [hlen]
        exact ⟨(Prod.mk.inj heq).2, hpos, hne⟩
      · rintro ⟨rfl, hpos, hne⟩
        exact ⟨w.len, hpos, rfl, hne⟩
    rw [hw, hrange, htotal, ranged_accepted h.ends.accepted, hfails]
    constructor
    · intro hrel
      obtain ⟨-, hall⟩ := rel_some_some.mp hrel
      exact (hlast _ (.refl _)).mp (hall _ (.refl _))
    · exact fun hcond => .some ⟨hlists, fun t' hcalls => (hlast t' hcalls).mpr hcond⟩

/-- Walks over spans are plain walks but for the last address of one that fails at a
region's start. -/
theorem walks_equal_ranges (ht : Calls facts (Table.new base limit) t) :
    (EqualsRange facts parity t start count ∧ MarksPf facts parity t start count) ↔
      ¬ FailsAtRegionStart facts base limit parity start count := by
  obtain ⟨hok, hg⟩ := ht.spec (tableOk_new base limit)
  have hiff := equalsRange_iff parity start count hok
  rw [hg.base, hg.limit] at hiff
  constructor
  · exact fun h => hiff.mp h.1
  · exact fun h => ⟨hiff.mpr h, marksPf hok⟩

/-- One byte an instruction, none at 256. -/
def failsAt256 (addr : ℕ) : Facts :=
  ⟨addr == 256, false, false, false, false, 1, by decide, by decide⟩

theorem walks_equal_ranges_alone : EqualsRange failsAt256 true (Table.new 0 4096) 255 1 ∧
    MarksPf failsAt256 true (Table.new 0 4096) 255 1 := by
  refine (walks_equal_ranges (.refl _)).mpr ?_
  have hend : (walkFrom failsAt256 0 4096 true 1 255 none false).2 ≠ .failed := by decide +kernel
  exact fun ⟨k, _, hwalk, _⟩ => hend (congrArg Prod.snd hwalk)

/-- A walk of the instruction before 256 says that its last address is 256. -/
theorem last_past_the_walk : ¬ EqualsRange failsAt256 false (Table.new 0 4096) 255 2 := by
  have hrange : (plainRange failsAt256 false (Table.new 0 4096) 255 2).1 = some [255] := by
    decide +kernel
  have hlast : (plainWalk failsAt256 false (Table.new 0 4096) 255 2 false).1.bind
      (fun w => w.last (plainWalk failsAt256 false (Table.new 0 4096) 255 2 false).2) =
      some 256 := by
    decide +kernel
  intro h
  unfold EqualsRange at h
  rw [hrange] at h
  cases hw : (plainWalk failsAt256 false (Table.new 0 4096) 255 2 false).1 with
  | none =>
    rw [hw] at h
    cases h
  | some w =>
    rw [hw] at h
    obtain ⟨-, hall⟩ := rel_some_some.mp h
    have hright := hall _ (.refl _)
    rw [hw, bind_some, hright] at hlast
    cases hlast

end Ranges

end WalkEquality
