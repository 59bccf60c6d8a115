import Reargo.SpanTables

/-!
# Walks over spans

A walk that steps over spans other walks left goes through the addresses of a walk one
instruction at a time, and its checkpoints find each of them again. Only the last address
can be missed: a walk that ends at a failed instruction where a region starts has its last
checkpoint there.
-/
namespace PlainWalks

open InsnTable SpanSummaries SpanTables
open List hiding span
open Bool hiding true_or

variable {addr : ℕ} {t : Table}

section Steps

variable (facts : ℕ → Facts) (base limit start count : ℕ)

def total (check : Bool) : List ℕ × End := walkFrom facts base limit check count start none false

/-- A walk under way has gone through the whole walk's first addresses, with the PF state of
one that checks it as long as it does. -/
structure WalkerOk (parity relift : Bool) (s : Walker) : Prop where
  table : TableOk facts s.table
  baseEq : s.table.base = base
  limitEq : s.table.limit = limit
  held : HeldOk s.table s.held
  addr : s.addr = addrAt facts start s.idx
  le : s.idx ≤ count
  plain : total facts base limit start count false = goOn (addrsFrom facts start s.idx)
    (walkFrom facts base limit false (count - s.idx) s.addr s.held false)
  checked : s.checkPf = true → total facts base limit start count true =
    goOn (addrsFrom facts start s.idx)
      (walkFrom facts base limit true (count - s.idx) s.addr s.held s.pfWritten)
  flags : s.checkPf = (parity && !s.needsPf)
  relifted : s.needsPf = true → relift = true ∧ parity = true ∧
    (total facts base limit start count true).2 = .pf
  known : ∀ i < s.idx, (s.table.cell (addrAt facts start i)).isSome

/-- Some instructions as one step: their number and what they make of the PF state. -/
structure Block (transfer : Bool → Option Bool) (c addr : ℕ) (held : Option ℕ) (p : ℕ) : Prop where
  passes : ∀ check m w w', (if check then transfer w else some w) = some w' →
    walkFrom facts base limit check (c + m) addr held w = goOn (addrsFrom facts addr c)
        (walkFrom facts base limit check m (addrAt facts addr c) (some p) w')
  refuses : ∀ m w, transfer w = none → (walkFrom facts base limit true (c + m) addr held w).2 = .pf

variable {facts base limit start count} {parity relift : Bool} {s : Walker} {held : Option ℕ}

theorem block_of_insn (hin : held = some (addr / pageBytes) ∨ covered base limit addr = true)
    (hf : (facts addr).failed = false) (hx : (facts addr).x87 = false) :
    Block facts base limit (facts addr).pf 1 addr held (addr / pageBytes) := by
  constructor
  · intro check m w w' hw
    rw [add_comm, walkFrom]
    simp only [if_pos hin, hf, hx, false_eq_true, if_false, hw]
    rfl
  · intro m w hw
    rw [add_comm, walkFrom]
    simp only [if_pos hin, hf, hx, false_eq_true, if_false, if_true, hw]

theorem div_boundary {a : ℕ} (hle : addr ≤ a) (hlt : a < boundary addr) :
    a / spanBytes = addr / spanBytes := by
  apply Nat.le_antisymm
  · exact Nat.lt_succ_iff.mp (Nat.div_lt_of_lt_mul (Nat.mul_comm _ _ ▸ hlt))
  · exact Nat.div_le_div_right hle

theorem page_boundary {a : ℕ} (hle : addr ≤ a) (hlt : a < boundary addr) :
    a / pageBytes = addr / pageBytes := by
  have hregion := div_boundary hle hlt
  have hpage : ∀ b : ℕ, b / pageBytes = b / spanBytes / 16 := fun b =>
    (Nat.div_div_eq_div_mul b spanBytes 16).symm
  rw [hpage, hpage, hregion]

theorem lt_boundary (addr : ℕ) : addr < boundary addr := by
  rw [boundary, mul_comm]
  exact Nat.lt_mul_div_succ addr (by decide)

theorem boundary_le (addr : ℕ) : boundary addr ≤ addr + spanBytes := by
  have hle := Nat.div_mul_le_self addr spanBytes
  simp only [boundary, Nat.succ_mul]
  omega

theorem div_of_boundary_le {a : ℕ} (h : boundary addr ≤ a) : a / spanBytes ≠ addr / spanBytes := by
  have hle : addr / spanBytes + 1 ≤ a / spanBytes :=
    (Nat.le_div_iff_mul_le (by decide)).mpr h
  omega

theorem block_of_span (hcount : 0 < (summaryOf facts base limit addr).count) :
    Block facts base limit (summaryOf facts base limit addr).pf
      (summaryOf facts base limit addr).count addr held (addr / pageBytes) := by
  constructor
  · intro check m w w' hw
    unfold summaryOf at hcount hw ⊢
    have hwalk := walkFrom_span check spanBytes addr m held w w'
      (fun a hle hlt => page_boundary hle hlt) hw
    rw [summarize_next, if_neg (ne_of_gt hcount)] at hwalk
    exact hwalk
  · intro m w hw
    exact walkFrom_span_refused spanBytes addr m held w hw

theorem walkFrom_held {check : Bool} {n : ℕ} {w : Bool}
    (hin : held = some (addr / pageBytes) ∨ covered base limit addr = true) :
    walkFrom facts base limit check n addr held w =
      walkFrom facts base limit check n addr (some (addr / pageBytes)) w := by
  cases n with
  | zero => rfl
  | succ n => simp only [walkFrom, if_pos hin, true_or, if_true]

section

variable (h : WalkerOk facts base limit start count parity relift s)

include h

theorem WalkerOk.enter {s' : Walker} (he : s.enter = some s') :
    WalkerOk facts base limit start count parity relift s' ∧ Grows s.table s'.table ∧
      s'.held = some (s'.addr / pageBytes) ∧ (s'.table.pages (s'.addr / pageBytes)).isSome ∧
      s'.addr = s.addr ∧ s'.idx = s.idx ∧ s'.checkpoints = s.checkpoints := by
  unfold Walker.enter at he
  split at he
  next heq =>
    cases he
    exact ⟨h, .refl _, heq, h.held _ heq, rfl, rfl, rfl⟩
  next hne =>
    obtain ⟨t, hpage, rfl⟩ := Option.map_eq_some_iff.mp he
    obtain ⟨hc, hsome, -⟩ := page_eq_some hpage
    have hg := grows_page hpage
    have hin : s.held = some (s.addr / pageBytes) ∨ covered base limit s.addr = true := by
      refine .inr ?_
      rw [← h.baseEq, ← h.limitEq]
      exact hc
    refine ⟨⟨h.table.page hpage, hg.base.trans h.baseEq, hg.limit.trans h.limitEq, ?_, h.addr, h.le,
      ?_, ?_, h.flags, h.relifted, fun i hi => hg.cells _ (h.known i hi)⟩,
      hg, rfl, hsome, rfl, rfl, rfl⟩
    · intro p hp
      cases hp
      exact hsome
    · simp only [← walkFrom_held hin]
      exact h.plain
    · simp only [← walkFrom_held hin]
      exact h.checked

theorem WalkerOk.outside (hlt : s.idx < count) (he : s.enter = none) (check : Bool)
    (hcheck : check = true → s.checkPf = true) :
    (total facts base limit start count check).2 = .outside := by
  have hno : ¬ (s.held = some (s.addr / pageBytes) ∨ covered base limit s.addr = true) := by
    unfold Walker.enter at he
    split at he
    · cases he
    next hne =>
      have hout : s.table.covers s.addr = false :=
        page_eq_none.mp (Option.map_eq_none_iff.mp he)
      have hcov : covered base limit s.addr = false := by
        rw [← h.baseEq, ← h.limitEq]
        exact hout
      rintro (heq | hin)
      · exact hne heq
      · rw [hcov] at hin
        cases hin
  obtain ⟨n, hn⟩ := Nat.exists_eq_add_of_lt hlt
  have hleft : count - s.idx = n + 1 := by omega
  cases check with
  | false => rw [h.plain, hleft, walkFrom, if_neg hno]; rfl
  | true => rw [h.checked (hcheck rfl), hleft, walkFrom, if_neg hno]; rfl

theorem WalkerOk.checking (hc : (parity && !relift) = true) : s.checkPf = true := by
  rw [h.flags]
  simp only [and_eq_true, not_eq_true'] at hc ⊢
  refine ⟨hc.1, ?_⟩
  cases hn : s.needsPf with
  | false => rfl
  | true =>
    have hrelift := (h.relifted hn).1
    rw [hc.2] at hrelift
    cases hrelift

theorem WalkerOk.rest (check : Bool)
    (hcheck : check = true → s.checkPf = true) : ∃ w, total facts base limit start count check =
      goOn (addrsFrom facts start s.idx)
        (walkFrom facts base limit check (count - s.idx) s.addr s.held w) := by
  cases check with
  | false => exact ⟨false, h.plain⟩
  | true => exact ⟨s.pfWritten, h.checked (hcheck rfl)⟩

end

variable {transfer : Bool → Option Bool}

theorem pf_eq_none (hp : s.pf relift transfer = none) :
    s.checkPf = true ∧ relift = false ∧ transfer s.pfWritten = none := by
  unfold Walker.pf at hp
  split at hp
  next hc =>
    split at hp
    · cases hp
    next hnone =>
      split at hp
      · cases hp
      next hr => exact ⟨hc, eq_false_iff.mpr hr, hnone⟩
  · cases hp

theorem pf_table {s' : Walker} (hp : s.pf relift transfer = some s') : s'.table = s.table := by
  unfold Walker.pf at hp
  split at hp
  · split at hp
    · cases hp
      rfl
    · split at hp
      · cases hp
        rfl
      · cases hp
  · cases hp
    rfl

variable (h : WalkerOk facts base limit start count parity relift s)

include h

theorem WalkerOk.pfRefused {c p : ℕ} (hb : Block facts base limit transfer c s.addr s.held p)
    (hc : c ≤ count - s.idx) (hp : s.pf relift transfer = none) :
    (total facts base limit start count (parity && !relift)).2.accepted = false := by
  obtain ⟨hcheck, hrelift, hnone⟩ := pf_eq_none hp
  have hparity : parity = true := by
    have hflags := h.flags
    rw [hcheck] at hflags
    exact (and_eq_true_iff.mp hflags.symm).1
  have hend := hb.refuses (count - s.idx - c) s.pfWritten hnone
  rw [Nat.add_sub_of_le hc] at hend
  rw [hparity, hrelift, show (true && !false) = true from rfl, h.checked hcheck]
  simp only [goOn, hend]
  rfl

/-- One step on. -/
theorem WalkerOk.advance {c p bytes : ℕ} {s₁ : Walker}
    (hb : Block facts base limit transfer c s.addr s.held p) (hc : c ≤ count - s.idx)
    (hheld : s.held = some p) (hbytes : s.addr + bytes = addrAt facts s.addr c)
    (htable : TableOk facts t) (hg : Grows s.table t)
    (hknown : ∀ i < c, (t.cell (addrAt facts s.addr i)).isSome)
    (hp : s.pf relift transfer = some s₁) :
    WalkerOk facts base limit start count parity relift
        { s₁ with table := t, idx := s₁.idx + c, addr := s₁.addr + bytes } ∧
      s₁.idx = s.idx ∧ s₁.addr = s.addr ∧ s₁.checkpoints = s.checkpoints := by
  have hsplit : ∀ check w w', (if check then transfer w else some w) = some w' →
      goOn (addrsFrom facts start s.idx)
        (walkFrom facts base limit check (count - s.idx) s.addr s.held w) =
      goOn (addrsFrom facts start (s.idx + c))
        (walkFrom facts base limit check (count - (s.idx + c)) (s.addr + bytes) s.held w') := by
    intro check w w' hw
    have hwalk := hb.passes check (count - s.idx - c) w w' hw
    rw [Nat.add_sub_of_le hc] at hwalk
    rw [hwalk, goOn_goOn, addrsFrom_add, ← h.addr, hheld, hbytes, Nat.sub_add_eq]
  have haddr : s.addr + bytes = addrAt facts start (s.idx + c) := by
    rw [hbytes, addrAt_add, ← h.addr]
  have hknown' : ∀ i < s.idx + c, (t.cell (addrAt facts start i)).isSome := by
    intro i hi
    by_cases hlt : i < s.idx
    · exact hg.cells _ (h.known i hlt)
    · obtain ⟨j, rfl⟩ := Nat.exists_eq_add_of_le (not_lt.mp hlt)
      rw [addrAt_add, ← h.addr]
      exact hknown j (by omega)
  have hle : s.idx + c ≤ count := by
    have := h.le
    omega
  have hplain := h.plain.trans (hsplit false false false rfl)
  unfold Walker.pf at hp
  split at hp
  next hcheck =>
    split at hp
    next w hw =>
      cases hp
      exact ⟨⟨htable, hg.base.trans h.baseEq, hg.limit.trans h.limitEq, h.held.grows hg, haddr,
        hle, hplain, fun _ => (h.checked hcheck).trans (hsplit true _ w hw), h.flags, h.relifted,
        hknown'⟩, rfl, rfl, rfl⟩
    next hnone =>
      split at hp
      next hrelift =>
        cases hp
        have hflags := h.flags
        rw [hcheck] at hflags
        have hparity := (and_eq_true_iff.mp hflags.symm).1
        have hend := hb.refuses (count - s.idx - c) s.pfWritten hnone
        rw [Nat.add_sub_of_le hc] at hend
        refine ⟨⟨htable, hg.base.trans h.baseEq, hg.limit.trans h.limitEq, h.held.grows hg, haddr,
          hle, hplain, nofun, ?_, fun _ => ⟨hrelift, hparity, ?_⟩, hknown'⟩, rfl, rfl, rfl⟩
        · simp only [Bool.not_true, Bool.and_false]
        · rw [h.checked hcheck]
          exact hend
      · cases hp
  next hcheck =>
    cases hp
    exact ⟨⟨htable, hg.base.trans h.baseEq, hg.limit.trans h.limitEq, h.held.grows hg, haddr,
      hle, hplain, fun h => absurd h hcheck, h.flags, h.relifted, hknown'⟩, rfl, rfl, rfl⟩

theorem WalkerOk.seen (hok : TableOk facts t) (hg : Grows s.table t) (points : List (ℕ × ℕ)) :
    WalkerOk facts base limit start count parity relift
      { s with table := t, checkpoints := points } :=
  ⟨hok, hg.base.trans h.baseEq, hg.limit.trans h.limitEq, h.held.grows hg, h.addr, h.le, h.plain,
    h.checked, h.flags, h.relifted, fun i hi => hg.cells _ (h.known i hi)⟩

end Steps

section Loops

variable {facts : ℕ → Facts} {base limit start count : ℕ} {parity relift : Bool}

def region (facts : ℕ → Facts) (start i : ℕ) : ℕ := addrAt facts start i / spanBytes

/-- Checkpoints before an index, increasing, each the address of its index, from the first. -/
structure PointsBelow (facts : ℕ → Facts) (start : ℕ) (points : List (ℕ × ℕ)) (idx : ℕ) :
    Prop where
  at_ : ∀ c ∈ points, c.1 = addrAt facts start c.2
  below : ∀ c ∈ points, c.2 < idx
  increasing : (points.map Prod.snd).Pairwise (· < ·)
  first : points = [] ∧ idx = 0 ∨ points.head? = some (start, 0)

/-- A walk inside the span from index `k`, its last checkpoint. -/
structure Inside (facts : ℕ → Facts) (start : ℕ) (points : List (ℕ × ℕ)) (k idx : ℕ) : Prop where
  le : k ≤ idx
  points : ∃ front, PointsBelow facts start front k ∧ points = front ++ [(addrAt facts start k, k)]
  across : 0 < k → region facts start (k - 1) ≠ region facts start k
  same : ∀ i, k ≤ i → i < idx → region facts start i = region facts start k

variable {points : List (ℕ × ℕ)}

theorem Inside.below {k idx : ℕ} (h : Inside facts start points k idx) (hlt : k < idx) :
    PointsBelow facts start points idx := by
  obtain ⟨front, hfront, rfl⟩ := h.points
  refine ⟨fun c hc => ?_, fun c hc => ?_, ?_, .inr ?_⟩
  · rcases mem_append.mp hc with hc | hc
    · exact hfront.at_ c hc
    · rw [mem_singleton.mp hc]
  · rcases mem_append.mp hc with hc | hc
    · exact lt_trans (hfront.below c hc) hlt
    · rw [mem_singleton.mp hc]
      exact hlt
  · rw [map_append, pairwise_append]
    refine ⟨hfront.increasing, pairwise_singleton _ _, fun a ha b hb => ?_⟩
    obtain ⟨c, hc, rfl⟩ := mem_map.mp ha
    rw [mem_singleton.mp hb]
    exact hfront.below c hc
  · rcases hfront.first with ⟨rfl, rfl⟩ | hhead
    · rfl
    · rw [head?_append, hhead]
      rfl

theorem Inside.step {k idx : ℕ} (h : Inside facts start points k idx)
    (hlt : addrAt facts start idx < boundary (addrAt facts start k)) :
    Inside facts start points k (idx + 1) := by
  refine ⟨Nat.le_succ_of_le h.le, h.points, h.across, fun i hki hi => ?_⟩
  have hmono := (addrAt_strictMono facts start).monotone
  apply div_boundary (hmono hki)
  exact lt_of_le_of_lt (hmono (Nat.lt_succ_iff.mp hi)) hlt

/-- How the steps inside the span from index `k` end. -/
def SteppedTo (facts : ℕ → Facts) (base limit start count : ℕ) (parity relift : Bool)
    (bound k : ℕ) (t : Table) : Outcome → Prop
  | .refused t' => TableOk facts t' ∧ Grows t t' ∧
      (total facts base limit start count (parity && !relift)).2.accepted = false
  | .more s => WalkerOk facts base limit start count parity relift s ∧ Grows t s.table ∧
      Inside facts start s.checkpoints k s.idx ∧ k < s.idx ∧ (s.idx < count → bound ≤ s.addr)
  | .done s => WalkerOk facts base limit start count parity relift s ∧ Grows t s.table ∧
      Inside facts start s.checkpoints k s.idx ∧ s.addr < boundary (addrAt facts start k) ∧
      s.idx < count ∧ ∀ check, (check = true → s.checkPf = true) →
        total facts base limit start count check = (addrsFrom facts start s.idx, .failed)

theorem SteppedTo.grows {bound k : ℕ} {t' : Table} {o : Outcome}
    (h : SteppedTo facts base limit start count parity relift bound k t' o) (hg : Grows t t') :
    SteppedTo facts base limit start count parity relift bound k t o := by
  cases o with
  | refused t'' => exact ⟨h.1, hg.trans h.2.1, h.2.2⟩
  | more s => exact ⟨h.1, hg.trans h.2.1, h.2.2⟩
  | done s => exact ⟨h.1, hg.trans h.2.1, h.2.2⟩

theorem stepLoop_spec {k : ℕ} (fuel : ℕ) (s : Walker)
    (h : WalkerOk facts base limit start count parity relift s)
    (hin : Inside facts start s.checkpoints k s.idx)
    (hfuel : boundary (addrAt facts start k) ≤ s.addr + fuel)
    (hmoves : k < s.idx ∨ s.idx < count ∧ s.addr < boundary (addrAt facts start k)) :
    SteppedTo facts base limit start count parity relift (boundary (addrAt facts start k)) k s.table
      (stepLoop facts relift count (boundary (addrAt facts start k)) fuel s) := by
  induction fuel generalizing s with
  | zero =>
    have hge : boundary (addrAt facts start k) ≤ s.addr := hfuel
    refine ⟨h, .refl _, hin, ?_, fun _ => hge⟩
    rcases hmoves with hlt | ⟨-, hlt⟩
    · exact hlt
    · exact absurd hlt (not_lt.mpr hge)
  | succ fuel ih =>
    unfold stepLoop
    by_cases hgo : s.idx < count ∧ s.addr < boundary (addrAt facts start k)
    · rw [if_pos hgo]
      cases he : s.enter with
      | none =>
        refine ⟨h.table, .refl _, ?_⟩
        rw [h.outside hgo.1 he _ h.checking]
        rfl
      | some s₁ =>
        obtain ⟨h₁, hg₁, hheld, hpage, haddr, hidx, hpoints⟩ := h.enter he
        obtain ⟨hf, hok, hg₂, hknown⟩ := fill_spec h₁.table hpage
        have hg := hg₁.trans hg₂
        have hleft : count - s₁.idx = (count - s₁.idx - 1) + 1 := by omega
        have hheldin : s₁.held = some (s₁.addr / pageBytes) ∨
            covered base limit s₁.addr = true := .inl hheld
        simp only [hf]
        by_cases hfail : (facts s₁.addr).failed = true
        · simp only [hfail, if_true]
          refine ⟨h₁.seen hok hg₂ _, hg, ?_, ?_, ?_, ?_⟩
          · rw [hpoints, hidx]
            exact hin
          · rw [haddr]
            exact hgo.2
          · rw [hidx]
            exact hgo.1
          · intro check hcheck
            obtain ⟨w, hw⟩ := h₁.rest check hcheck
            rw [hw, hleft, walkFrom, if_pos hheldin, if_pos hfail]
            exact congrArg (·, End.failed) (append_nil _)
        · by_cases hx : (facts s₁.addr).x87 = true
          · simp only [hfail, hx, if_true, if_false, false_eq_true]
            refine ⟨hok, hg, ?_⟩
            obtain ⟨w, hw⟩ := h₁.rest _ h₁.checking
            rw [hw, hleft, walkFrom, if_pos hheldin, if_neg hfail, if_pos hx]
            rfl
          · simp only [hfail, hx, if_false, false_eq_true]
            have hb : Block facts base limit (facts s₁.addr).pf 1 s₁.addr s₁.held
                (s₁.addr / pageBytes) :=
              block_of_insn hheldin (eq_false_iff.mpr hfail) (eq_false_iff.mpr hx)
            cases hp : s₁.pf relift (facts s₁.addr).pf with
            | none => exact ⟨hok, hg, h₁.pfRefused hb (by omega) hp⟩
            | some s₂ =>
              obtain ⟨h₂, hidx₂, haddr₂, hpoints₂⟩ := h₁.advance hb (by omega) hheld rfl hok hg₂
                (fun i hi => by rw [Nat.lt_one_iff.mp hi]; exact hknown) hp
              apply SteppedTo.grows _ hg
              have hpos := (facts s₁.addr).pos
              refine ih _ h₂ ?_ ?_ (.inl ?_)
              · simp only [hidx₂, hidx, hpoints₂, hpoints]
                exact hin.step (by rw [← h.addr]; exact hgo.2)
              · simp only [haddr₂, haddr]
                rw [haddr] at hpos
                omega
              · simp only [hidx₂, hidx]
                exact Nat.lt_succ_of_le hin.le
    · rw [if_neg hgo]
      refine ⟨h, .refl _, hin, ?_, fun hlt => ?_⟩
      · rcases hmoves with hlt | hboth
        · exact hlt
        · exact absurd hboth hgo
      · exact not_lt.mp fun ha => hgo ⟨hlt, ha⟩

theorem span_reads {s : Summary} (hs : summaryOf facts base limit addr = s) :
    (s.span addr).count = s.count ∧ addr + (s.span addr).bytes = addrAt facts addr s.count ∧
      (s.span addr).has spanStop = s.stop ∧ (s.span addr).pf = s.pf := by
  have hnext : s.next = addrAt facts addr s.count :=
    hs ▸ summarize_next facts base limit (boundary addr) spanBytes addr
  have hcount : s.count < 512 := by
    rw [← hs]
    exact lt_of_le_of_lt (summarize_count_le (boundary addr) spanBytes addr) (by decide)
  have hge : addr ≤ s.next := by
    rw [hnext]
    exact (addrAt_strictMono facts addr).monotone (Nat.zero_le _)
  have hle : s.next ≤ boundary addr + 15 := by
    rw [← hs]
    exact summarize_next_le (boundary addr) spanBytes addr
      ((lt_boundary addr).le.trans (Nat.le_add_right _ _))
  have hbytes : s.next - addr < 512 := by
    have hbound := boundary_le addr
    simp only [spanBytes] at hbound
    omega
  refine ⟨count_pack hcount hbytes, ?_, stop_pack hcount hbytes, ?_⟩
  · rw [Summary.span, bytes_pack hcount hbytes, Nat.add_sub_of_le hge]
    exact hnext
  · funext w
    rw [Summary.span, pf_pack hcount hbytes]
    cases w with
    | true => rfl
    | false => rfl

theorem PointsBelow.push {idx : ℕ} (h : PointsBelow facts start points idx)
    (hacross : 0 < idx → region facts start (idx - 1) ≠ region facts start idx) :
    Inside facts start (points ++ [(addrAt facts start idx, idx)]) idx idx :=
  ⟨le_refl _, ⟨points, h, rfl⟩, hacross, fun _ hle hlt => absurd hlt (not_lt.mpr hle)⟩

theorem Inside.run {k idx c : ℕ} (h : Inside facts start points k idx)
    (hlt : ∀ i < c, addrAt facts start (idx + i) < boundary (addrAt facts start k)) :
    Inside facts start points k (idx + c) := by
  induction c with
  | zero => exact h
  | succ c ih =>
    apply (ih fun i hi => hlt i (Nat.lt_succ_of_lt hi)).step
    exact hlt c (Nat.lt_succ_self c)

theorem Inside.leave {k idx : ℕ} (h : Inside facts start points k idx)
    (hlt : k < idx) (hge : boundary (addrAt facts start k) ≤ addrAt facts start idx) :
    region facts start (idx - 1) ≠ region facts start idx := by
  rw [h.same (idx - 1) (Nat.le_sub_one_of_lt hlt) (Nat.sub_one_lt_of_lt hlt)]
  exact (div_of_boundary_le hge).symm

theorem span_any (h : TableOk facts t) (addr : ℕ) (keep : Bool) :
    TableOk facts (span facts t addr keep).2 ∧ Grows t (span facts t addr keep).2 ∧
      ((span facts t addr keep).1.has spanStop = false →
        SpanOk facts (span facts t addr keep).2 addr (span facts t addr keep).1) := by
  by_cases hc : t.covers addr = true
  · obtain ⟨hv, hok, hg⟩ := span_spec h keep hc
    exact ⟨hok, hg, fun _ => hv⟩
  · simp only [span, if_neg hc]
    exact ⟨h, .refl t, fun hstop => absurd hstop (by decide)⟩

def WalkedTo (facts : ℕ → Facts) (base limit start count : ℕ) (parity relift : Bool)
    (t : Table) : Outcome → Prop
  | .refused t' => TableOk facts t' ∧ Grows t t' ∧
      (total facts base limit start count (parity && !relift)).2.accepted = false
  | .more _ => False
  | .done s => WalkerOk facts base limit start count parity relift s ∧ Grows t s.table ∧
      (s.idx = count ∧ PointsBelow facts start s.checkpoints count ∨
        s.idx < count ∧ (∃ k, Inside facts start s.checkpoints k s.idx ∧
          addrAt facts start s.idx < boundary (addrAt facts start k)) ∧
          ∀ check, (check = true → s.checkPf = true) →
            total facts base limit start count check = (addrsFrom facts start s.idx, .failed))

theorem WalkedTo.grows {t' : Table} {o : Outcome}
    (h : WalkedTo facts base limit start count parity relift t' o) (hg : Grows t t') :
    WalkedTo facts base limit start count parity relift t o := by
  cases o with
  | refused t'' => exact ⟨h.1, hg.trans h.2.1, h.2.2⟩
  | more s => exact h
  | done s => exact ⟨h.1, hg.trans h.2.1, h.2.2⟩

theorem walkLoop_spec (fuel : ℕ) (s : Walker)
    (h : WalkerOk facts base limit start count parity relift s)
    (hpoints : PointsBelow facts start s.checkpoints s.idx)
    (hacross : 0 < s.idx → s.idx < count → region facts start (s.idx - 1) ≠ region facts start s.idx)
    (hfuel : count ≤ s.idx + fuel) :
    WalkedTo facts base limit start count parity relift s.table
      (walkLoop facts relift start count fuel s) := by
  induction fuel generalizing s with
  | zero =>
    have heq : s.idx = count := le_antisymm h.le hfuel
    exact ⟨h, .refl _, .inl ⟨heq, heq ▸ hpoints⟩⟩
  | succ fuel ih =>
    unfold walkLoop
    by_cases hgo : s.idx < count
    · rw [if_pos hgo]
      cases he : s.enter with
      | none =>
        refine ⟨h.table, .refl _, ?_⟩
        rw [h.outside hgo he _ h.checking]
        rfl
      | some s₁ =>
        obtain ⟨h₁, hg₁, hheld, -, -, hidx, hsame⟩ := h.enter he
        have hin : Inside facts start (s₁.checkpoints ++ [(s₁.addr, s₁.idx)]) s₁.idx s₁.idx := by
          rw [h₁.addr]
          apply PointsBelow.push
          · rw [hsame, hidx]
            exact hpoints
          · rw [hidx]
            exact fun hpos => hacross hpos hgo
        obtain ⟨hok, hg₂, hv⟩ := span_any h₁.table s₁.addr (s₁.addr != start)
        simp only
        generalize span facts s₁.table s₁.addr (s₁.addr != start) = vt at hok hg₂ hv ⊢
        obtain ⟨v, t⟩ := vt
        have h₂ := h₁.seen hok hg₂ (s₁.checkpoints ++ [(s₁.addr, s₁.idx)])
        have hg := hg₁.trans hg₂
        have hlt : s₁.idx < count := hidx ▸ hgo
        simp only at hok hg₂ hv h₂ hg ⊢
        split
        next hstep =>
          simp only [and_eq_true, not_eq_true', decide_eq_true_eq] at hstep
          obtain ⟨⟨hstop, hle⟩, hpos⟩ := hstep
          obtain ⟨hveq, hknown⟩ := hv hstop
          rw [h₂.baseEq, h₂.limitEq] at hveq hknown
          obtain ⟨hcount, hbytes, hstop', hpf⟩ :=
            span_reads (rfl : summaryOf facts base limit s₁.addr = _)
          rw [← hveq] at hcount hbytes hstop' hpf
          rw [hcount] at hle hpos
          have hb : Block facts base limit v.pf v.count s₁.addr s₁.held (s₁.addr / pageBytes) := by
            rw [hpf, hcount]
            exact block_of_span hpos
          have hleft : v.count ≤ count - s₁.idx := by omega
          cases hp : ({ s₁ with
              table := t, checkpoints := s₁.checkpoints ++ [(s₁.addr, s₁.idx)] } : Walker).pf
              relift v.pf with
          | none => exact ⟨hok, hg, h₂.pfRefused hb hleft hp⟩
          | some s₃ =>
            have htable : s₃.table = t := pf_table hp
            have hrun : Inside facts start (s₁.checkpoints ++ [(s₁.addr, s₁.idx)]) s₁.idx
                (s₁.idx + v.count) := by
              apply hin.run
              intro i hi
              rw [addrAt_add, ← h₁.addr]
              exact (summarize_below (boundary s₁.addr) spanBytes s₁.addr i (hcount ▸ hi)).1
            have hend : boundary (addrAt facts start s₁.idx) ≤
                addrAt facts start (s₁.idx + v.count) := by
              rw [addrAt_add, ← h₁.addr, hcount, summaryOf, ← summarize_next]
              apply summarize_reaches _ _ _ (boundary_le _)
              exact hstop'.symm.trans hstop
            rw [← hcount] at hbytes hknown hpos
            obtain ⟨h₃, hidx₃, haddr₃, hpoints₃⟩ :=
              h₂.advance hb hleft hheld hbytes hok (.refl t) hknown hp
            rw [← htable] at h₃ hg
            have hmoves : s₁.idx < s₁.idx + v.count := Nat.lt_add_of_pos_right hpos
            refine (ih _ h₃ ?_ ?_ ?_).grows hg
            · simp only [hpoints₃, hidx₃]
              exact hrun.below hmoves
            · simp only [hidx₃]
              exact fun _ _ => hrun.leave hmoves hend
            · simp only [hidx₃]
              omega
        next hstep =>
          have hbelow : s₁.addr < boundary (addrAt facts start s₁.idx) := by
            rw [← h₁.addr]
            exact lt_boundary _
          have hsteps := stepLoop_spec spanBytes _ h₂ hin
            (by rw [← h₁.addr]; exact boundary_le _) (.inr ⟨hlt, hbelow⟩)
          rw [← h₁.addr] at hsteps
          cases ho : stepLoop facts relift count (boundary s₁.addr) spanBytes { s₁ with
              table := t, checkpoints := s₁.checkpoints ++ [(s₁.addr, s₁.idx)] } with
          | refused t' =>
            rw [ho] at hsteps
            exact ⟨hsteps.1, hg.trans hsteps.2.1, hsteps.2.2⟩
          | done s₃ =>
            rw [ho] at hsteps
            obtain ⟨h₃, hg₃, hin₃, hbelow₃, hlt₃, hend⟩ := hsteps
            exact ⟨h₃, hg.trans hg₃, .inr ⟨hlt₃, ⟨_, hin₃, h₃.addr ▸ hbelow₃⟩, hend⟩⟩
          | more s₃ =>
            rw [ho] at hsteps
            obtain ⟨h₃, hg₃, hin₃, hmoves, hend⟩ := hsteps
            refine (ih s₃ h₃ (hin₃.below hmoves) (fun _ hlt₃ => ?_) (by omega)).grows (hg.trans hg₃)
            apply hin₃.leave hmoves
            rw [← h₁.addr, ← h₃.addr]
            exact hend hlt₃
    · rw [if_neg hgo]
      have heq : s.idx = count := le_antisymm h.le (not_lt.mp hgo)
      exact ⟨h, .refl _, .inl ⟨heq, heq ▸ hpoints⟩⟩

end Loops

end PlainWalks
