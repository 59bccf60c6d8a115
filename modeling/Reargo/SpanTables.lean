import Reargo.SpanSummaries

/-!
# The table over any calls

Each cell found is the facts of its address, and each span left is the one its address has,
its instructions' facts found too. Both kinds of walk keep this.
-/
namespace SpanTables

open InsnTable SpanSummaries Option Function Bool
open List hiding span

variable {facts : ℕ → Facts} {t t' t'' : Table} {addr : ℕ} {v : Span}

/-- Nothing known is lost. -/
structure Grows (t t' : Table) : Prop where
  base : t'.base = t.base
  limit : t'.limit = t.limit
  pages : ∀ p, (t.pages p).isSome → (t'.pages p).isSome
  cells : ∀ a, (t.cell a).isSome → (t'.cell a).isSome

theorem Grows.refl (t : Table) : Grows t t := ⟨rfl, rfl, fun _ h => h, fun _ h => h⟩

theorem Grows.trans (h : Grows t t') (k : Grows t' t'') : Grows t t'' :=
  ⟨k.base.trans h.base, k.limit.trans h.limit, fun p hp => k.pages p (h.pages p hp),
    fun a ha => k.cells a (h.cells a ha)⟩

structure SpanOk (facts : ℕ → Facts) (t : Table) (addr : ℕ) (v : Span) : Prop where
  eq : v = (summaryOf facts t.base t.limit addr).span addr
  known : ∀ i < (summaryOf facts t.base t.limit addr).count,
    (t.cell (addrAt facts addr i)).isSome

structure TableOk (facts : ℕ → Facts) (t : Table) : Prop where
  cells : ∀ a f, t.cell a = some f → f = facts a
  pages : ∀ p, (t.pages p).isSome → t.base / pageBytes ≤ p
  spans : ∀ r e, some e ∈ t.spans r → ∀ addr, addr / spanBytes = r → addr % spanBytes = e.1 →
    SpanOk facts t addr e.2

theorem SpanOk.grows (h : SpanOk facts t addr v) (hg : Grows t t') : SpanOk facts t' addr v := by
  refine ⟨?_, fun i hi => ?_⟩
  · rw [hg.base, hg.limit]
    exact h.eq
  · rw [hg.base, hg.limit] at hi
    exact hg.cells _ (h.known i hi)

theorem tableOk_new (base limit : ℕ) : TableOk facts (Table.new base limit) := by
  refine ⟨nofun, nofun, fun r e h => ?_⟩
  simp [Table.new] at h

section Cells

variable {a : ℕ}

theorem cell_page (h : t.page a = some t') : ∀ b, t'.cell b = t.cell b := by
  intro b
  unfold Table.page at h
  split at h
  · cases h
    simp only [Table.cell]
    by_cases hp : b / pageBytes = a / pageBytes
    · simp only [hp, update_self, bind_some]
      cases t.pages (a / pageBytes) with
      | none => rfl
      | some page => rfl
    · simp only [update_of_ne hp]
  · cases h

theorem grows_page (h : t.page a = some t') : Grows t t' := by
  have hcell := cell_page h
  unfold Table.page at h
  split at h
  · cases h
    refine ⟨rfl, rfl, fun p hp => ?_, fun b hb => ?_⟩
    · by_cases hpa : p = a / pageBytes
      · subst hpa
        simp only [update_self, isSome_some]
      · simpa only [update_of_ne hpa] using hp
    · rw [hcell b]
      exact hb
  · cases h

theorem page_eq_some (h : t.page a = some t') :
    t.covers a = true ∧ (t'.pages (a / pageBytes)).isSome ∧ t'.spans = t.spans := by
  unfold Table.page at h
  split at h
  next hc =>
    cases h
    refine ⟨hc, ?_, rfl⟩
    simp only [update_self, isSome_some]
  · cases h

theorem page_eq_none : t.page a = none ↔ t.covers a = false := by
  unfold Table.page
  split
  next hc => simp only [reduceCtorEq, hc, true_eq_false]
  next hc => simp only [eq_false_iff.mpr hc]

theorem TableOk.grow (h : TableOk facts t) (hg : Grows t t') (hspans : t'.spans = t.spans)
    (hcells : ∀ a f, t'.cell a = some f → f = facts a)
    (hpages : ∀ p, (t'.pages p).isSome → t.base / pageBytes ≤ p) : TableOk facts t' := by
  refine ⟨hcells, fun p hp => ?_, fun r e he addr hr hk => ?_⟩
  · rw [hg.base]
    exact hpages p hp
  · rw [hspans] at he
    exact (h.spans r e he addr hr hk).grows hg

theorem TableOk.page (h : TableOk facts t) (hp : t.page a = some t') :
    TableOk facts t' := by
  obtain ⟨hc, -, hspans⟩ := page_eq_some hp
  apply h.grow (grows_page hp) hspans
  · intro b f hb
    rw [cell_page hp] at hb
    exact h.cells b f hb
  · intro p hsome
    unfold Table.page at hp
    rw [if_pos hc] at hp
    cases hp
    by_cases hpa : p = a / pageBytes
    · subst hpa
      simp only [Table.covers, and_eq_true, decide_eq_true_eq] at hc
      exact Nat.div_le_div_right hc.1
    · simp only [update_of_ne hpa] at hsome
      exact h.pages p hsome

theorem cell_store {f : Facts} (hp : (t.pages (a / pageBytes)).isSome) (b : ℕ) :
    (t.store a f).cell b = if b = a then some f else t.cell b := by
  obtain ⟨page, hpage⟩ := isSome_iff_exists.mp hp
  simp only [Table.cell, Table.store]
  by_cases hb : b / pageBytes = a / pageBytes
  · simp only [hb, update_self, hpage, map_some, bind_some]
    by_cases hba : b = a
    · subst hba
      simp only [update_self, if_true]
    · have hmod : b % pageBytes ≠ a % pageBytes := by
        intro h
        apply hba
        rw [← Nat.div_add_mod b pageBytes, ← Nat.div_add_mod a pageBytes, hb, h]
      simp only [update_of_ne hmod, hba, if_false]
  · have hba : b ≠ a := fun h => hb (by rw [h])
    simp only [update_of_ne hb, hba, if_false]

theorem fill_spec (h : TableOk facts t) (hp : (t.pages (a / pageBytes)).isSome) :
    (fill facts t a).1 = facts a ∧ TableOk facts (fill facts t a).2 ∧
      Grows t (fill facts t a).2 ∧ ((fill facts t a).2.cell a).isSome := by
  unfold fill
  cases hc : t.cell a with
  | some f =>
    refine ⟨h.cells a f hc, h, .refl t, ?_⟩
    simp only [hc, isSome_some]
  | none =>
    simp only
    have hcell : ∀ b, (t.store a (facts a)).cell b = if b = a then some (facts a) else t.cell b :=
      cell_store hp
    have hg : Grows t (t.store a (facts a)) := by
      refine ⟨rfl, rfl, fun p hsome => ?_, fun b hb => ?_⟩
      · simp only [Table.store]
        by_cases hpa : p = a / pageBytes
        · subst hpa
          simpa only [update_self, isSome_map] using hsome
        · simpa only [update_of_ne hpa] using hsome
      · rw [hcell]
        split
        · rfl
        · exact hb
    refine ⟨trivial, h.grow hg rfl ?_ ?_, hg, ?_⟩
    · intro b f hb
      rw [hcell] at hb
      split at hb
      next heq =>
        cases hb
        rw [heq]
      · exact h.cells b f hb
    · intro p hsome
      simp only [Table.store] at hsome
      by_cases hpa : p = a / pageBytes
      · subst hpa
        exact h.pages _ hp
      · simp only [update_of_ne hpa] at hsome
        exact h.pages p hsome
    · rw [hcell, if_pos rfl]
      rfl

theorem length_eq (h : TableOk facts t) (hk : (t.cell a).isSome) :
    t.length a = some (facts a).length := by
  obtain ⟨f, hf⟩ := isSome_iff_exists.mp hk
  have heq := h.cells a f hf
  unfold Table.cell at hf
  obtain ⟨page, hpage, hcell⟩ := bind_eq_some_iff.mp hf
  have hle : t.base / pageBytes ≤ a / pageBytes := h.pages _ (by rw [hpage]; rfl)
  simp only [Table.length, Table.pageUnchecked, hle, if_true, hpage, bind_some, hcell,
    map_some, heq]

theorem fact_eq_none : fact facts t a = none ↔ t.covers a = false := by
  rw [fact, map_eq_none_iff]
  exact page_eq_none

theorem fact_spec (h : TableOk facts t) {f : Facts} (hf : fact facts t a = some (f, t')) :
    t.covers a = true ∧ f = facts a ∧ TableOk facts t' ∧ Grows t t' ∧ (t'.cell a).isSome := by
  obtain ⟨t₁, hpage, hfill⟩ := map_eq_some_iff.mp hf
  obtain ⟨hc, hsome, -⟩ := page_eq_some hpage
  obtain ⟨hfacts, hok, hg, hknown⟩ := fill_spec (h.page hpage) hsome
  rw [hfill] at hfacts hok hg hknown
  exact ⟨hc, hfacts, hok, (grows_page hpage).trans hg, hknown⟩

end Cells

section Spans

theorem spanLoop_spec (bound fuel : ℕ) (s : SpanState) (h : TableOk facts s.table)
    (hstop : s.stop = false) :
    let r := summarize facts s.table.base s.table.limit bound fuel s.addr
    let s' := spanLoop facts bound fuel s
    s'.addr = r.next ∧ s'.n = s.n + r.count ∧ s'.stop = r.stop ∧
      s'.pfClear = s.pfClear.bind r.pf ∧ s'.pfSet = s.pfSet.bind r.pf ∧
      TableOk facts s'.table ∧ Grows s.table s'.table ∧
      ∀ i < r.count, (s'.table.cell (addrAt facts s.addr i)).isSome := by
  have empty (P : ℕ → Prop) : ∀ i < 0, P i := fun i hi => absurd hi (Nat.not_lt_zero i)
  induction fuel generalizing s with
  | zero =>
    refine ⟨rfl, rfl, hstop, ?_, ?_, h, .refl _, empty _⟩
    · exact (bind_fun_some _).symm
    · exact (bind_fun_some _).symm
  | succ fuel ih =>
    have hpf : ∀ x : Option Bool, x = x.bind some := fun x => (bind_fun_some x).symm
    simp only [spanLoop, summarize]
    split
    next hlt =>
      cases hfact : fact facts s.table s.addr with
      | none =>
        have hout : covered s.table.base s.table.limit s.addr = false := fact_eq_none.mp hfact
        simp only [hout, Bool.false_and, false_eq_true, if_false]
        exact ⟨trivial, rfl, trivial, hpf _, hpf _, h, .refl _, empty _⟩
      | some ft =>
        obtain ⟨f, t₁⟩ := ft
        obtain ⟨hc, rfl, hok, hg, hknown⟩ := fact_spec h hfact
        have hin : covered s.table.base s.table.limit s.addr = true := hc
        simp only [hin, Bool.true_and]
        by_cases hend : ((facts s.addr).failed || (facts s.addr).x87) = true
        · simp only [hend, if_true, Bool.not_true, false_eq_true, if_false]
          exact ⟨trivial, rfl, trivial, hpf _, hpf _, hok, hg, empty _⟩
        · simp only [hend, if_false, Bool.not_false, if_true, false_eq_true]
          obtain ⟨haddr, hn, hst, hclear, hset, hok', hg', hknown'⟩ :=
            ih ⟨t₁, s.addr + (facts s.addr).length, s.n + 1, false,
              s.pfClear.bind (facts s.addr).pf, s.pfSet.bind (facts s.addr).pf⟩ hok rfl
          simp only [hg.base, hg.limit] at haddr hn hst hclear hset hknown'
          refine ⟨haddr, ?_, hst, ?_, ?_, hok', hg.trans hg', fun i hi => ?_⟩
          · rw [hn, Nat.add_right_comm, Nat.add_assoc]
          · rw [hclear, bind_assoc]
          · rw [hset, bind_assoc]
          · cases i with
            | zero => exact hg'.cells _ hknown
            | succ i => exact hknown' i (Nat.lt_of_succ_lt_succ hi)
    next hge => exact ⟨rfl, rfl, hstop, hpf _, hpf _, h, .refl _, empty _⟩

theorem mem_keepIn {key : ℕ} {slots : List (Option (ℕ × Span))} {e : ℕ × Span}
    (h : some e ∈ Table.keepIn key v slots) : e = (key, v) ∨ some e ∈ slots := by
  induction slots with
  | nil => cases h
  | cons slot rest ih =>
    cases slot with
    | none =>
      rcases mem_cons.mp h with heq | hmem
      · exact .inl (some.inj heq)
      · exact .inr (mem_cons_of_mem _ hmem)
    | some e' =>
      simp only [Table.keepIn] at h
      split at h
      · exact .inr h
      · rcases mem_cons.mp h with heq | hmem
        · exact .inr (heq ▸ mem_cons_self)
        · exact (ih hmem).imp_right (mem_cons_of_mem _)

theorem grows_keepSpan (t : Table) (a : ℕ) (v : Span) : Grows t (t.keepSpan a v) :=
  ⟨rfl, rfl, fun _ hp => hp, fun _ hc => hc⟩

theorem TableOk.keepSpan (h : TableOk facts t) {a : ℕ} (hv : SpanOk facts t a v) :
    TableOk facts (t.keepSpan a v) := by
  have hg := grows_keepSpan t a v
  refine ⟨h.cells, h.pages, fun r e he addr hr hk => ?_⟩
  have hslots : e = (a % spanBytes, v) ∧ r = a / spanBytes ∨ some e ∈ t.spans r := by
    simp only [Table.keepSpan] at he
    by_cases hra : r = a / spanBytes
    · subst hra
      simp only [update_self] at he
      exact (mem_keepIn he).imp_left fun heq => ⟨heq, rfl⟩
    · simp only [update_of_ne hra] at he
      exact .inr he
  rcases hslots with ⟨rfl, rfl⟩ | hold
  · have haddr : addr = a := by
      rw [← Nat.div_add_mod addr spanBytes, ← Nat.div_add_mod a spanBytes, hr, hk]
    rw [haddr]
    exact hv.grows hg
  · exact (h.spans r e hold addr hr hk).grows hg

theorem spanOk_spanLoop (h : TableOk facts t) (a : ℕ) :
    let s := spanLoop facts (boundary a) spanBytes ⟨t, a, 0, false, some false, some true⟩
    SpanOk facts s.table a (Span.pack s.n (s.addr - a) s.stop s.pfClear s.pfSet) ∧
      TableOk facts s.table ∧ Grows t s.table := by
  obtain ⟨haddr, hn, hst, hclear, hset, hok, hg, hknown⟩ := spanLoop_spec (boundary a) spanBytes
    ⟨t, a, 0, false, some false, some true⟩ h rfl
  simp only [zero_add, bind_some] at haddr hn hst hclear hset hg hknown
  refine ⟨⟨?_, fun i hi => ?_⟩, hok, hg⟩
  · rw [hg.base, hg.limit, summaryOf, Summary.span, haddr, hn, hst, hclear, hset]
  · rw [hg.base, hg.limit] at hi
    exact hknown i hi

theorem span_spec (h : TableOk facts t) {a : ℕ} (keep : Bool) (hc : t.covers a = true) :
    SpanOk facts (span facts t a keep).2 a (span facts t a keep).1 ∧
      TableOk facts (span facts t a keep).2 ∧ Grows t (span facts t a keep).2 := by
  unfold span
  simp only [hc, if_true]
  cases hs : t.spanAt a with
  | some v =>
    refine ⟨?_, h, .refl t⟩
    obtain ⟨slot, hslot, hv⟩ := exists_of_findSome?_eq_some hs
    obtain ⟨e, he, hkey⟩ := bind_eq_some_iff.mp hv
    split at hkey
    next heq =>
      cases hkey
      exact h.spans _ e (he ▸ hslot) a rfl heq.symm
    · cases hkey
  | none =>
    obtain ⟨hv, hok, hg⟩ := spanOk_spanLoop h a
    cases keep with
    | false => exact ⟨hv, hok, hg⟩
    | true =>
      refine ⟨hv.grows ?_, hok.keepSpan hv, hg.trans ?_⟩
      · exact grows_keepSpan _ a _
      · exact grows_keepSpan _ a _

end Spans

section Ranges

/-- What a list of addresses so far becomes with the rest of the walk. -/
def ranged (addrs : List ℕ) (rest : List ℕ × End) : Option (List ℕ) :=
  match rest.2 with
  | .full => some (addrs ++ rest.1)
  | .failed => some (addrs ++ rest.1)
  | _ => none

/-- The page a walk reads without the table's bounds is allocated. -/
def HeldOk (t : Table) (held : Option ℕ) : Prop := ∀ p, held = some p → (t.pages p).isSome

variable {held : Option ℕ}

theorem HeldOk.grows (h : HeldOk t held) (hg : Grows t t') : HeldOk t' held :=
  fun p hp => hg.pages p (h p hp)

theorem entered_none (h : (if held = some (addr / pageBytes) then some t else t.page addr) = none) :
    ¬ (held = some (addr / pageBytes) ∨ covered t.base t.limit addr = true) := by
  split at h
  · cases h
  next hne =>
    rintro (heq | hin)
    · exact hne heq
    · have hout : covered t.base t.limit addr = false := page_eq_none.mp h
      rw [hin] at hout
      cases hout

theorem entered_some (hok : TableOk facts t) (hheld : HeldOk t held)
    (h : (if held = some (addr / pageBytes) then some t else t.page addr) = some t') :
    (held = some (addr / pageBytes) ∨ covered t.base t.limit addr = true) ∧ TableOk facts t' ∧
      Grows t t' ∧ (t'.pages (addr / pageBytes)).isSome := by
  split at h
  next heq =>
    cases h
    exact ⟨.inl heq, hok, .refl t, hheld _ heq⟩
  · obtain ⟨hc, hpage, -⟩ := page_eq_some h
    exact ⟨.inr hc, hok.page h, grows_page h, hpage⟩

theorem rangeLoop_spec (parity : Bool) (n : ℕ) (addr : ℕ) (held : Option ℕ) (w : Bool)
    (addrs : List ℕ) (h : TableOk facts t) (hheld : HeldOk t held) :
    (rangeLoop facts parity n t addr held w addrs).1 =
        ranged addrs (walkFrom facts t.base t.limit parity n addr held w) ∧
      TableOk facts (rangeLoop facts parity n t addr held w addrs).2 ∧
      Grows t (rangeLoop facts parity n t addr held w addrs).2 := by
  induction n generalizing t addr held w addrs with
  | zero =>
    refine ⟨?_, h, .refl t⟩
    exact congrArg some (append_nil addrs).symm
  | succ n ih =>
    simp only [rangeLoop, walkFrom]
    cases henter : (if held = some (addr / pageBytes) then some t else t.page addr) with
    | none =>
      rw [if_neg (entered_none henter)]
      exact ⟨rfl, h, .refl t⟩
    | some t₁ =>
      obtain ⟨hin, hok₁, hg₁, hpage⟩ := entered_some h hheld henter
      obtain ⟨hfacts, hok₂, hg₂, -⟩ := fill_spec hok₁ hpage
      have hg := hg₁.trans hg₂
      simp only [if_pos hin, hfacts]
      by_cases hf : (facts addr).failed = true
      · simp only [hf, if_true]
        exact ⟨congrArg some (append_nil addrs).symm, hok₂, hg⟩
      · by_cases hx : (facts addr).x87 = true
        · simp only [hf, hx, if_true, if_false, false_eq_true]
          exact ⟨rfl, hok₂, hg⟩
        · simp only [hf, hx, if_false, false_eq_true]
          cases hpf : (if parity then (facts addr).pf w else some w) with
          | none => exact ⟨rfl, hok₂, hg⟩
          | some w' =>
            have hheld' : HeldOk (fill facts t₁ addr).2 (some (addr / pageBytes)) := by
              intro p hp
              cases hp
              exact hg₂.pages _ hpage
            obtain ⟨hlist, hok₃, hg₃⟩ := ih (addr + (facts addr).length) _ w' (addrs ++ [addr])
              hok₂ hheld'
            refine ⟨?_, hok₃, hg.trans hg₃⟩
            simp only [hlist, hg.base, hg.limit, ranged, append_assoc, singleton_append]

theorem plainRange_spec (parity : Bool) (start count : ℕ) (h : TableOk facts t) :
    (plainRange facts parity t start count).1 =
        ranged [] (walkFrom facts t.base t.limit parity count start none false) ∧
      TableOk facts (plainRange facts parity t start count).2 ∧
      Grows t (plainRange facts parity t start count).2 :=
  rangeLoop_spec parity count start none false [] h nofun

end Ranges

end SpanTables
