import Reargo.AnalyzerPipeline

/-!
# Where the split analyzers prepare

The windows cover the pipeline in order. Each split analyzer prepares once, no later than its
own place, with no writer of what it reads from there up to its place.
-/
namespace AnalyzerWindows

open AnalyzerPipeline List Option

variable {V : Fin 32 → Type} {Prepared Result : Type} {n : ℕ}

/-- The windows are consecutive runs from `a` up to `n`. -/
def Covers : ℕ → List Window → ℕ → Prop
  | a, [], n => a = n
  | a, w :: ws, n => w.start = a ∧ w.start ≤ w.stop ∧ Covers w.stop ws n

def span (w : Window) : ℕ × ℕ := (w.start, w.stop)

theorem Covers.congr {a : ℕ} {ws vs : List Window} (h : ws.map span = vs.map span)
    (hc : Covers a ws n) : Covers a vs n := by
  induction ws generalizing a vs with
  | nil =>
    cases vs with
    | nil => exact hc
    | cons v vs => simp at h
  | cons w ws ih =>
    cases vs with
    | nil => simp at h
    | cons v vs =>
      simp only [map_cons, List.cons.injEq, span, Prod.mk.injEq] at h
      obtain ⟨⟨hstart, hstop⟩, htail⟩ := h
      obtain ⟨ha, hle, hrest⟩ := hc
      refine ⟨hstart ▸ ha, hstart ▸ hstop ▸ hle, ?_⟩
      exact ih htail (hstop ▸ hrest)

variable {ws : List Window} {x : Window}

theorem covers_snoc {a : ℕ} {w : Window} :
    Covers a (ws ++ [w]) n ↔ Covers a ws w.start ∧ w.start ≤ w.stop ∧ w.stop = n := by
  induction ws generalizing a with
  | nil =>
    constructor
    · rintro ⟨ha, hle, hn⟩
      exact ⟨ha.symm, hle, hn⟩
    · rintro ⟨ha, hle, hn⟩
      exact ⟨ha.symm, hle, hn⟩
  | cons v ws ih =>
    simp only [cons_append, Covers, ih]
    constructor
    · rintro ⟨ha, hle, hrest, hn⟩
      exact ⟨⟨ha, hle, hrest⟩, hn⟩
    · rintro ⟨⟨ha, hle, hrest⟩, hn⟩
      exact ⟨ha, hle, hrest, hn⟩

theorem Covers.le {a : ℕ} (h : Covers a ws n) : a ≤ n := by
  induction ws generalizing a with
  | nil => exact le_of_eq h
  | cons w ws ih =>
    obtain ⟨rfl, hle, hrest⟩ := h
    exact hle.trans (ih hrest)

theorem Covers.stop_eq {a k : ℕ} {y : Window} (h : Covers a ws n)
    (hx : ws[k]? = some x) (hy : ws[k + 1]? = some y) : x.stop = y.start := by
  induction ws generalizing a k with
  | nil => simp at hx
  | cons w ws ih =>
    obtain ⟨-, -, hrest⟩ := h
    cases k with
    | zero =>
      cases ws with
      | nil => simp at hy
      | cons v vs =>
        simp only [getElem?_cons_zero, getElem?_cons_succ, some.injEq] at hx hy
        rw [← hx, ← hy]
        exact hrest.1.symm
    | succ k =>
      apply ih hrest
      · simpa using hx
      · simpa using hy

theorem Covers.start_le_stop {a k : ℕ} (h : Covers a ws n) (hx : ws[k]? = some x) :
    x.start ≤ x.stop := by
  induction ws generalizing a k with
  | nil => simp at hx
  | cons w ws ih =>
    obtain ⟨-, hle, hrest⟩ := h
    cases k with
    | zero =>
      simp only [getElem?_cons_zero, some.injEq] at hx
      exact hx ▸ hle
    | succ k => exact ih hrest (by simpa using hx)

theorem Covers.start_mono {a j k : ℕ} {y : Window} (h : Covers a ws n)
    (hjk : j ≤ k) (hx : ws[j]? = some x) (hy : ws[k]? = some y) : x.start ≤ y.start := by
  induction hjk generalizing y with
  | refl =>
    have heq : x = y := some.inj (hx.symm.trans hy)
    exact le_of_eq (congrArg Window.start heq)
  | @step k _ ih =>
    obtain ⟨hk, -⟩ := List.getElem?_eq_some_iff.mp hy
    have hz : ws[k]? = some ws[k] := List.getElem?_eq_getElem (Nat.lt_of_succ_lt hk)
    calc x.start ≤ ws[k].start := ih hz
      _ ≤ ws[k].stop := h.start_le_stop hz
      _ = y.start := h.stop_eq hz hy

def Clear (analyzers : List (Analyzer V Prepared Result)) (reads : State) (j i : ℕ) : Prop :=
  ∀ k a, j ≤ k → k < i → analyzers[k]? = some a → reads.intersects a.writes = false

def SplitAt (analyzers : List (Analyzer V Prepared Result)) (i : ℕ) (reads : State) : Prop :=
  ∃ a, analyzers[i]? = some a ∧ a.prepareReads = some reads

def isSplit (overlap : Bool) (analyzers : List (Analyzer V Prepared Result)) (i : ℕ) : Bool :=
  (analyzers[i]?).any fun a => (a.prepareReads.filter fun _ => overlap).isSome

variable {analyzers : List (Analyzer V Prepared Result)} {reads : State}

theorem Clear.mono {j j' i : ℕ} (h : Clear analyzers reads j i) (hj : j ≤ j') :
    Clear analyzers reads j' i :=
  fun k a hk => h k a (hj.trans hk)

theorem Clear.append {j k i : ℕ} (h : Clear analyzers reads j k)
    (h' : Clear analyzers reads k i) : Clear analyzers reads j i := by
  intro l a hjl hli hl
  rcases lt_or_ge l k with hlk | hkl
  · exact h l a hjl hlk hl
  · exact h' l a hkl hli hl

theorem clear_self (i : ℕ) : Clear analyzers reads i i :=
  fun _ _ hik hki _ => absurd hki (not_lt.mpr hik)

private theorem intersects_fold {l : List (Analyzer V Prepared Result)} {acc : State}
    (h : reads.intersects (l.foldl (fun acc a => acc.union a.writes) acc) = false) :
    reads.intersects acc = false ∧ ∀ a ∈ l, reads.intersects a.writes = false := by
  induction l generalizing acc with
  | nil => exact ⟨h, by simp⟩
  | cons a l ih =>
    obtain ⟨hacc, hl⟩ := ih h
    simp only [State.intersects_union, Bool.or_eq_false_iff] at hacc
    refine ⟨hacc.1, ?_⟩
    intro b hb
    rcases mem_cons.mp hb with rfl | hb
    · exact hacc.2
    · exact hl b hb

theorem clear_of_writesOf {j i : ℕ}
    (h : reads.intersects (writesOf (slice analyzers j i)) = false) :
    Clear analyzers reads j i := by
  intro k a hjk hki hk
  apply (intersects_fold h).2
  apply mem_of_getElem? (i := k - j)
  simp only [slice, getElem?_drop, getElem?_take]
  simp [Nat.add_sub_cancel' hjk, hki, hk]

section Home

theorem getLast_filter_range {p : ℕ → Bool} {k : ℕ} (hk : k < n) (hp : p k = true) :
    ∃ l, ((List.range n).filter p).getLast? = some l ∧ l < n ∧ p l = true ∧ k ≤ l := by
  induction n with
  | zero => exact absurd hk (Nat.not_lt_zero k)
  | succ n ih =>
    simp only [range_succ, filter_append]
    cases hn : p n with
    | true => exact ⟨n, by simp [hn], Nat.lt_succ_self n, hn, Nat.le_of_lt_succ hk⟩
    | false =>
      have hkn : k ≠ n := by
        rintro rfl
        simp [hn] at hp
      obtain ⟨l, hl, hln, hpl, hkl⟩ := ih (by omega)
      exact ⟨l, by simp [hn, hl], by omega, hpl, hkl⟩

theorem home_spec {ws : List Window} {i k : ℕ} (hx : ws[k]? = some x)
    (hxi : x.start ≤ i) : ∃ y, ws[home ws i]? = some y ∧ y.start ≤ i ∧ k ≤ home ws i := by
  obtain ⟨hk, -⟩ := List.getElem?_eq_some_iff.mp hx
  have hp : (ws[k]?).any (fun x => x.start ≤ i) = true := by simp [hx, hxi]
  obtain ⟨l, hl, hln, hpl, hkl⟩ :=
    getLast_filter_range (p := fun w => (ws[w]?).any fun x => decide (x.start ≤ i)) hk hp
  have hhome : home ws i = l := by simp only [home, hl, getD_some]
  have hget : ws[l]? = some ws[l] := List.getElem?_eq_getElem hln
  refine ⟨ws[l], by rw [hhome, hget], ?_, by omega⟩
  simpa [hget] using hpl

end Home

theorem walkBack_spec {i w : ℕ} (written : State)
    (hc : Covers 0 ws n) (hx : ws[w]? = some x) (hclear : Clear analyzers reads x.start i) :
    ∃ y, ws[walkBack analyzers ws reads w written]? = some y ∧
      walkBack analyzers ws reads w written ≤ w ∧ Clear analyzers reads y.start i := by
  induction w generalizing written x with
  | zero => exact ⟨x, hx, le_refl 0, hclear⟩
  | succ w ih =>
    obtain ⟨hw, -⟩ := List.getElem?_eq_some_iff.mp hx
    have hz : ws[w]? = some ws[w] := List.getElem?_eq_getElem (Nat.lt_of_succ_lt hw)
    simp only [walkBack, hz]
    split
    · exact ⟨x, hx, le_refl _, hclear⟩
    · rename_i hno
      simp only [State.intersects_union, Bool.or_eq_true, not_or, Bool.not_eq_true] at hno
      -- nothing of the window before writes what is read: the way back goes on from there
      have hbefore : Clear analyzers reads ws[w].start x.start :=
        hc.stop_eq hz hx ▸ clear_of_writesOf hno.2
      obtain ⟨y, hy, hle, hyi⟩ := ih _ hz (hbefore.append hclear)
      exact ⟨y, hy, hle.trans (Nat.le_succ w), hyi⟩

theorem walkOn_spec (homes : List Bool) (gap w : ℕ) :
    w ≤ walkOn homes gap w ∧ walkOn homes gap w ≤ w + gap := by
  induction gap generalizing w with
  | zero => exact ⟨le_refl w, le_refl w⟩
  | succ gap ih =>
    simp only [walkOn]
    split
    · exact ⟨le_refl w, Nat.le_add_right w _⟩
    · obtain ⟨hle, hge⟩ := ih (w + 1)
      exact ⟨Nat.le_of_succ_le hle, by omega⟩

theorem placeOf_spec {i k : ℕ} (homes : List Bool) (hc : Covers 0 ws n) (hx : ws[k]? = some x)
    (hxi : x.start ≤ i) (hclear : Clear analyzers reads x.start i) :
    ∃ y, ws[placeOf analyzers homes ws i reads]? = some y ∧ y.start ≤ i ∧
      Clear analyzers reads y.start i := by
  obtain ⟨h, hh, hhi, hkh⟩ := home_spec hx hxi
  have hhclear : Clear analyzers reads h.start i := hclear.mono (hc.start_mono hkh hx hh)
  obtain ⟨b, hb, hbh, hbclear⟩ :=
    walkBack_spec (writesOf (slice analyzers h.start i)) hc hh hhclear
  simp only [placeOf, hh]
  generalize walkBack analyzers ws reads (home ws i) _ = back at hb hbh
  obtain ⟨hle, hge⟩ := walkOn_spec homes (home ws i - back) back
  generalize walkOn homes (home ws i - back) back = w at hle hge
  obtain ⟨hhl, -⟩ := List.getElem?_eq_some_iff.mp hh
  have hwl : w < ws.length := by omega
  have hw : ws[w]? = some ws[w] := List.getElem?_eq_getElem hwl
  refine ⟨ws[w], hw, ?_, ?_⟩
  · exact (hc.start_mono (by omega) hw hh).trans hhi
  · exact hbclear.mono (hc.start_mono hle hb hw)

section Cut

structure CutInv (overlap : Bool) (analyzers : List (Analyzer V Prepared Result)) (n : ℕ)
    (c : Cut) : Prop where
  covers : Covers 0 (c.windows ++ [c.current]) n
  unprepared : ∀ w ∈ c.windows ++ [c.current], w.prepared = []
  written : ∀ reads : State, reads.intersects c.written = false →
    Clear analyzers reads c.current.start n
  placed : ∀ i reads, (i, reads) ∈ c.split → SplitAt analyzers i reads ∧
    ∃ b ∈ (c.windows ++ [c.current]).map Window.start, b ≤ i ∧ Clear analyzers reads b i
  split : c.split.map Prod.fst = (List.range n).filter (isSplit overlap analyzers)

variable {overlap : Bool} {a : Analyzer V Prepared Result}

theorem cutInv_initial : CutInv overlap analyzers 0 ⟨[], ⟨0, 0, []⟩, .none, []⟩ where
  covers := ⟨rfl, le_refl 0, rfl⟩
  unprepared := by simp
  written := fun _ _ => clear_self 0
  placed := by simp
  split := rfl

theorem CutInv.before {c : Cut} (reads : State) (h : CutInv overlap analyzers n c) :
    CutInv overlap analyzers n (cutBefore c n reads) ∧
      Clear analyzers reads (cutBefore c n reads).current.start n := by
  obtain ⟨-, -, -⟩ := covers_snoc.mp h.covers
  cases hi : reads.intersects c.written with
  | false =>
    have heq : cutBefore c n reads = c := by
      simp [cutBefore, hi]
    exact heq.symm ▸ ⟨h, h.written reads hi⟩
  | true =>
    have heq : cutBefore c n reads = { c with
          windows := c.windows ++ [c.current]
          current := ⟨n, n, []⟩
          written := .none } := by simp [cutBefore, hi]
    simp only [heq]
    refine ⟨?_, clear_self n⟩
    constructor
    · exact covers_snoc.mpr ⟨h.covers, le_refl n, rfl⟩
    · intro w hw
      rcases mem_append.mp hw with hw | hw
      · exact h.unprepared w hw
      · rw [mem_singleton.mp hw]
    · exact fun _ _ => clear_self n
    · intro i r hir
      obtain ⟨hs, b, hb, hbi, hclear⟩ := h.placed i r hir
      refine ⟨hs, b, ?_, hbi, hclear⟩
      simp only [map_append, mem_append]
      exact .inl (by simpa using hb)
    · exact h.split

theorem CutInv.advance {c : Cut} (h : CutInv overlap analyzers n c) (ha : analyzers[n]? = some a)
    {split : List (ℕ × State)}
    (hplaced : ∀ i reads, (i, reads) ∈ split → SplitAt analyzers i reads ∧ ∃ b ∈
    (c.windows ++ [c.current]).map Window.start, b ≤ i ∧ Clear analyzers reads b i)
    (hsplit : split.map Prod.fst = (List.range (n + 1)).filter (isSplit overlap analyzers)) :
    CutInv overlap analyzers (n + 1) { c with
        split := split
        current := { c.current with stop := n + 1 }
        written := c.written.union a.writes } := by
  obtain ⟨hcov, hle, hstop⟩ := covers_snoc.mp h.covers
  constructor
  · exact covers_snoc.mpr ⟨hcov, by change c.current.start ≤ n + 1; omega, rfl⟩
  · intro w hw
    rcases mem_append.mp hw with hw | hw
    · exact h.unprepared w (mem_append_left _ hw)
    · rw [mem_singleton.mp hw]
      exact h.unprepared c.current (by simp)
  · intro r hr
    simp only [State.intersects_union, Bool.or_eq_false_iff] at hr
    apply (h.written r hr.1).append
    intro k b hnk hkn hb
    have hk : k = n := by omega
    rw [hk, ha] at hb
    exact some.inj hb ▸ hr.2
  · intro i r hir
    obtain ⟨hs, b, hb, hbi, hclear⟩ := hplaced i r hir
    exact ⟨hs, b, by simpa using hb, hbi, hclear⟩
  · exact hsplit

theorem CutInv.step {c : Cut} (h : CutInv overlap analyzers n c) (ha : analyzers[n]? = some a) :
    CutInv overlap analyzers (n + 1) (cutStep overlap c (a, n)) := by
  have hrange : ∀ b, isSplit overlap analyzers n = b → (range (n + 1)).filter
      (isSplit overlap analyzers) = (range n).filter (isSplit overlap analyzers) ++
        bif b then [n] else [] := by
    rintro b rfl
    simp only [range_succ, filter_append, filter_singleton]
  cases hr : a.prepareReads.filter fun _ => overlap with
  | none =>
    have hno : isSplit overlap analyzers n = false := by
      simp only [isSplit, ha, any_some, hr, isSome_none]
    have heq : cutStep overlap c (a, n) = { c with
          current := { c.current with stop := n + 1 }
          written := c.written.union a.writes } := by simp [cutStep, hr]
    rw [heq]
    apply h.advance ha h.placed
    simp only [hrange false hno, h.split]
    simp
  | some reads =>
    have hyes : isSplit overlap analyzers n = true := by
      simp only [isSplit, ha, any_some, hr, isSome_some]
    obtain ⟨hcut, hclear⟩ := h.before reads
    have heq : cutStep overlap c (a, n) = { cutBefore c n reads with
          split := (cutBefore c n reads).split ++ [(n, reads)]
          current := { (cutBefore c n reads).current with stop := n + 1 }
          written := (cutBefore c n reads).written.union a.writes } := by
      simp [cutStep, hr]
    rw [heq]
    apply hcut.advance ha
    · intro i r hir
      rcases mem_append.mp hir with hir | hir
      · exact hcut.placed i r hir
      · obtain ⟨rfl, rfl⟩ := Prod.mk.inj (mem_singleton.mp hir)
        have hreads : a.prepareReads = some r := (filter_eq_some_iff.mp hr).1
        obtain ⟨-, hle, hstop⟩ := covers_snoc.mp hcut.covers
        refine ⟨⟨a, ha, hreads⟩, _, ?_, hle.trans (le_of_eq hstop), hclear⟩
        simp
    · simp only [map_append, hcut.split, hrange true hyes]
      simp

/-- A fold over a list with its places keeps what each step carries on. -/
theorem foldl_zipIdx {α β : Type} {f : β → α × ℕ → β} {l : List α} {inv : ℕ → β → Prop} {b : β}
    (h0 : inv 0 b) (hstep : ∀ n c a, l[n]? = some a → inv n c → inv (n + 1) (f c (a, n))) :
    inv l.length (l.zipIdx.foldl f b) := by
  induction l using List.reverseRecOn with
  | nil => exact h0
  | append_singleton l a ih =>
    have hl : inv l.length (l.zipIdx.foldl f b) := by
      apply ih
      intro n c x hx
      obtain ⟨hn, -⟩ := List.getElem?_eq_some_iff.mp hx
      exact hstep n c x (by simp [List.getElem?_append_left hn, hx])
    simp only [zipIdx_append, foldl_append, length_append, zipIdx_cons,
      zipIdx_nil, foldl_cons, foldl_nil, zero_add]
    exact hstep l.length _ a (by simp) hl

theorem cut_inv (m : AnalysisManager V Prepared Result) :
    CutInv m.overlap m.analyzers m.analyzers.length m.cut :=
  foldl_zipIdx cutInv_initial fun _ _ _ ha h => h.step ha

end Cut

section Placement

structure Placed (analyzers : List (Analyzer V Prepared Result)) (n : ℕ) (done : List ℕ)
    (ws : List Window) : Prop where
  covers : Covers 0 ws n
  clear : ∀ w ∈ ws, ∀ i ∈ w.prepared,
    w.start ≤ i ∧ ∃ reads, SplitAt analyzers i reads ∧ Clear analyzers reads w.start i
  once : (ws.flatMap Window.prepared).Perm done

theorem flatMap_modify {ws : List Window} {k i : ℕ} (hx : ws[k]? = some x) :
    ((ws.modify k fun x => { x with prepared := x.prepared ++ [i] }).flatMap
      Window.prepared).Perm (ws.flatMap Window.prepared ++ [i]) := by
  induction ws generalizing k with
  | nil => simp at hx
  | cons w ws ih =>
    cases k with
    | zero =>
      simp only [modify_zero_cons, flatMap_cons, append_assoc]
      exact List.Perm.append_left _ perm_append_comm
    | succ k =>
      simp only [modify_succ_cons, flatMap_cons, append_assoc]
      exact List.Perm.append_left _ (ih (by simpa using hx))

theorem Placed.step {i : ℕ} {done : List ℕ} {ws : List Window} (homes : List Bool)
    (h : Placed analyzers n done ws) (hs : SplitAt analyzers i reads)
    {b : ℕ} (hb : b ∈ ws.map Window.start) (hbi : b ≤ i) (hclear : Clear analyzers reads b i) :
    Placed analyzers n (done ++ [i]) (placeStep analyzers homes ws (i, reads)) ∧
      (placeStep analyzers homes ws (i, reads)).map Window.start = ws.map Window.start := by
  obtain ⟨x, hx, rfl⟩ := mem_map.mp hb
  obtain ⟨k, hk⟩ := mem_iff_getElem?.mp hx
  obtain ⟨y, hy, hyi, hyclear⟩ := placeOf_spec homes h.covers hk hbi hclear
  simp only [placeStep]
  generalize placeOf analyzers homes ws i reads = p at hy
  have hmap : ∀ {β : Type} (f : Window → β),
      (∀ x : Window, f { x with prepared := x.prepared ++ [i] } = f x) →
      (ws.modify p fun x => { x with prepared := x.prepared ++ [i] }).map f = ws.map f := by
    intro β f hf
    apply ext_getElem?
    intro j
    simp only [getElem?_map, getElem?_modify]
    split
    · cases ws[j]? with
      | none => rfl
      | some z => simp [hf]
    · cases ws[j]? <;> rfl
  refine ⟨⟨?_, ?_, ?_⟩, hmap Window.start fun _ => rfl⟩
  · exact h.covers.congr (hmap span fun _ => rfl).symm
  · intro w hw j hj
    obtain ⟨l, hl⟩ := mem_iff_getElem?.mp hw
    rw [getElem?_modify] at hl
    obtain ⟨z, hz, hzw⟩ := map_eq_some_iff.mp hl
    split at hzw
    · -- the chosen window: what it held before, or `i`
      rename_i hpl
      have hzy : z = y := some.inj ((hpl ▸ hz).symm.trans hy)
      subst hzw hzy
      rcases mem_append.mp hj with hj | hj
      · exact h.clear z (mem_of_getElem? hz) j hj
      · rw [mem_singleton.mp hj]
        exact ⟨hyi, reads, hs, hyclear⟩
    · exact h.clear w (hzw ▸ mem_of_getElem? hz) j hj
  · exact (flatMap_modify hy).trans (List.Perm.append_right [i] h.once)

theorem placed_fold {ws : List Window} (homes : List Bool) (done : List ℕ)
    (split : List (ℕ × State)) (h : Placed analyzers n done ws)
    (hsplit : ∀ i reads, (i, reads) ∈ split → SplitAt analyzers i reads ∧
    ∃ b ∈ ws.map Window.start, b ≤ i ∧ Clear analyzers reads b i) :
    Placed analyzers n (done ++ split.map Prod.fst)
      (split.foldl (placeStep analyzers homes) ws) := by
  induction split generalizing done ws with
  | nil => simpa using h
  | cons e split ih =>
    obtain ⟨i, r⟩ := e
    obtain ⟨hs, b, hb, hbi, hclear⟩ := hsplit i r mem_cons_self
    obtain ⟨hplaced, hstarts⟩ := h.step homes hs hb hbi hclear
    have htail := ih _ hplaced fun j r' hj => hstarts ▸ hsplit j r' (mem_cons_of_mem _ hj)
    simpa using htail

/-- Every split analyzer prepares once, in a window that starts no later than its place and
from whose start up to its place no analyzer writes what its `prepare` reads. -/
theorem windows_placed (m : AnalysisManager V Prepared Result) :
    Placed m.analyzers m.analyzers.length
      ((List.range m.analyzers.length).filter (isSplit m.overlap m.analyzers)) m.windows := by
  have hcut := cut_inv m
  rw [← hcut.split]
  apply placed_fold _ []
  · constructor
    · exact hcut.covers
    · intro w hw i hi
      rw [hcut.unprepared w hw] at hi
      exact absurd hi not_mem_nil
    · apply List.Perm.of_eq
      apply flatMap_eq_nil_iff.mpr
      exact hcut.unprepared
  · exact hcut.placed

end Placement

end AnalyzerWindows
