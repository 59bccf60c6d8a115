import Reargo.UseLists

/-!
# Use lists through common subexpression elimination

The search redirects the key of each operation it removes to that of one it keeps, and never
the key of one it keeps. So every chain of redirects has one step, and the kept value that
takes over the readers of a removed one is the output of the kept operation itself.
-/
namespace MovedReaders

open PcodeModel ControlFlow SsaModel SsaBuild DeadCode CommonSubexpressions UseLists List
open Bool hiding not_or or_assoc
open Option (some.inj)

theorem getLsbD_foldl_or {α : Type} (f : α → U64) (l : List α) (m : U64) {n : ℕ}
    (h : m.getLsbD n = true ∨ ∃ a ∈ l, (f a).getLsbD n = true) :
    (l.foldl (fun m a => m ||| f a) m).getLsbD n = true := by
  induction l generalizing m with
  | nil =>
    rcases h with h | ⟨a, ha, -⟩
    · exact h
    · exact absurd ha not_mem_nil
  | cons a l ih =>
    refine ih (m ||| f a) ?_
    rw [BitVec.getLsbD_or, or_eq_true]
    rcases h with h | ⟨b, hb, hbit⟩
    · exact .inl (.inl h)
    · rcases mem_cons.mp hb with rfl | hb
      · exact .inl (.inr hbit)
      · exact .inr ⟨b, hb, hbit⟩

theorem exists_bit (k : ValueKey) : ∃ n, (keyBit k).getLsbD n = true := by
  unfold keyBit
  generalize hx : (k.1.2.1 >>> 3) ^^^ (k.1.2.1 >>> 9) ^^^ BitVec.ofNat 64 k.2 = x
  have hlt : x.toNat &&& 63 < 64 := lt_of_le_of_lt Nat.and_le_right (by decide)
  refine ⟨(x &&& 63).toNat, ?_⟩
  rw [BitVec.getLsbD_shiftLeft]
  simpa using hlt

variable {k : ValueKey}

theorem bloomOf_and_keyBit {keys : List ValueKey} (hk : k ∈ keys) :
    bloomOf keys &&& keyBit k ≠ 0 := by
  obtain ⟨n, hn⟩ := exists_bit k
  have hbloom : (bloomOf keys).getLsbD n = true :=
    getLsbD_foldl_or keyBit keys 0 (.inr ⟨k, hk, hn⟩)
  intro hzero
  have hbit : (bloomOf keys &&& keyBit k).getLsbD n = false := by
    rw [hzero]
    exact BitVec.getLsbD_zero
  rw [BitVec.getLsbD_and, hbloom, hn] at hbit
  cases hbit

/-- What the search over the operations below `n` has done. -/
structure Searched (f₀ : SsaFunction) (n : ℕ) (st : CseState) : Prop where
  thins : Thins f₀ st.func
  ahead : ∀ j, n ≤ j → (st.func.op j).dead = (f₀.op j).dead
  seen : ∀ key k, st.seen.lookup key = some k →
    ∃ a w, (st.func.op a).dead = false ∧ a < n ∧ (f₀.op a).output = some w ∧ valueKey f₀ w = k
  source : ∀ k e, st.redirects.lookup k = some e → ∃ b w, (st.func.op b).dead = true ∧
    (f₀.op b).dead = false ∧ (f₀.op b).output = some w ∧ valueKey f₀ w = k
  target : ∀ k e, st.redirects.lookup k = some e → ∃ a w, (st.func.op a).dead = false ∧ a < n ∧
    (f₀.op a).output = some w ∧ valueKey f₀ w = e
  killed : ∀ b, (st.func.op b).dead = true → (f₀.op b).dead = false → ∃ w,
    (f₀.op b).output = some w ∧ ∃ e, st.redirects.lookup (valueKey f₀ w) = some e

variable {f₀ : SsaFunction}

theorem Searched.advance {n : ℕ} {st st' : CseState} (h : Searched f₀ n st)
    (hfunc : st'.func = st.func) (hredirects : st'.redirects = st.redirects)
    (hseen : ∀ x k, st'.seen.lookup x = some k → st.seen.lookup x = some k ∨
    ∃ w, (st.func.op n).dead = false ∧ (f₀.op n).output = some w ∧ valueKey f₀ w = k) :
    Searched f₀ (n + 1) st' := by
  constructor
  all_goals rw [hfunc]
  · exact h.thins
  · exact fun j hj => h.ahead j (by omega)
  · intro x k hk
    rcases hseen x k hk with hk | ⟨w, hlive, hw⟩
    · obtain ⟨a, w, ha, hlt, hw⟩ := h.seen x k hk
      exact ⟨a, w, ha, by omega, hw⟩
    · exact ⟨n, w, hlive, Nat.lt_succ_self n, hw⟩
  · rw [hredirects]
    exact h.source
  · intro k e he
    rw [hredirects] at he
    obtain ⟨a, w, ha, hlt, hw⟩ := h.target k e he
    exact ⟨a, w, ha, by omega, hw⟩
  · rw [hredirects]
    exact h.killed

theorem standsFor_spec (ph : Phantoms) (st : CseState) (i out : ℕ) (existing : ValueKey) :
    (standsFor ph st i out existing).1.func = st.func ∧
      (standsFor ph st i out existing).1.seen = st.seen ∧
      (standsFor ph st i out existing).1.redirects = st.redirects := by
  unfold standsFor
  split
  · exact ⟨rfl, rfl, rfl⟩
  · simp only
    split <;> exact ⟨rfl, rfl, rfl⟩

theorem cseStep_cases (ph : Phantoms) (st : CseState) (i : ℕ) :
    ((cseStep ph st i).func = st.func ∧ (cseStep ph st i).redirects = st.redirects ∧
      (cseStep ph st i).seen = st.seen) ∨
    ∃ out key, (st.func.op i).dead = false ∧ isCsePure (st.func.op i).opcode = true ∧
      (st.func.op i).output = some out ∧
      (((cseStep ph st i).func = st.func ∧ (cseStep ph st i).redirects = st.redirects ∧
        (cseStep ph st i).seen =
          st.seen.insert key (resolveRedirect st.redirects (valueKey st.func out))) ∨
      ∃ existing, st.seen.lookup key = some existing ∧
        (cseStep ph st i).func = kill st.func i ∧ (cseStep ph st i).seen = st.seen ∧
        (cseStep ph st i).redirects =
          st.redirects.insert (resolveRedirect st.redirects (valueKey st.func out)) existing) := by
  unfold cseStep
  simp only
  split
  · exact .inl ⟨rfl, rfl, rfl⟩
  · next hvisit =>
    simp only [skipped, not_or, or_eq_true, not_eq_true, not_eq_false] at hvisit
    split
    · exact .inl ⟨rfl, rfl, rfl⟩
    · next out hout =>
      refine .inr ⟨out, seenKey st i out, hvisit.1.1, hvisit.2.1, hout, ?_⟩
      split
      · exact .inl ⟨rfl, rfl, rfl⟩
      · next existing hseen =>
        obtain ⟨hfunc, hsame, hredirects⟩ := standsFor_spec ph { st with
            hits := st.hits + 1
            rescan := markBlocks st.rescan [(st.func.op i).block] } i out existing
        split
        · refine .inr ⟨existing, hseen, ?_, ?_, ?_⟩
          · exact congrArg (fun f => kill f i) hfunc
          · exact hsame
          · simp only [eliminate, hredirects]
        · refine .inl ⟨hfunc, hredirects, ?_⟩
          simp only [hsame]

theorem resolve_of_none {r : Redirects} (h : r.lookup k = none) : resolveRedirect r k = k := by
  unfold resolveRedirect followRedirects
  rw [h]

theorem resolve_of_some {r : Redirects} {e : ValueKey} (h : r.lookup k = some e)
    (he : r.lookup e = none) : resolveRedirect r k = e := by
  have hne : e ≠ k := by
    rintro rfl
    rw [h] at he
    cases he
  unfold resolveRedirect
  rw [followRedirects, h]
  simp only [if_neg hne]
  rw [followRedirects, he]

section Search

variable {f₀ : SsaFunction} {n : ℕ} {st : CseState} (hrec : Recorded f₀) (h : Searched f₀ n st)
include hrec h

theorem lookup_live {d w : ℕ} (hd : (st.func.op d).dead = false)
    (hw : (f₀.op d).output = some w) : st.redirects.lookup (valueKey f₀ w) = none := by
  by_contra hsome
  obtain ⟨e, he⟩ := Option.ne_none_iff_exists'.mp hsome
  obtain ⟨b, x, hdead, hlive, hx, hkey⟩ := h.source _ e he
  have hd₀ := h.thins.lives hd
  obtain rfl := hrec.distinct b d x w hlive hd₀ hx hw hkey
  obtain rfl : b = d :=
    some.inj ((hrec.output b x hlive hx).symm.trans (hrec.output d x hd₀ hw))
  exact absurd (hd.symm.trans hdead) (by decide)

theorem resolve_live {d w : ℕ} (hd : (st.func.op d).dead = false) (hw : (f₀.op d).output = some w) :
    resolveRedirect st.redirects (valueKey f₀ w) = valueKey f₀ w :=
  resolve_of_none (lookup_live hrec h hd hw)

theorem resolve_redirected {e : ValueKey} (hk : st.redirects.lookup k = some e) :
    resolveRedirect st.redirects k = e := by
  obtain ⟨a, w, ha, -, hw, rfl⟩ := h.target k e hk
  exact resolve_of_some hk (lookup_live hrec h ha hw)

theorem searched_step (ph : Phantoms) (hn : n < f₀.ops.length) :
    Searched f₀ (n + 1) (cseStep ph st n) := by
  have hkey : ∀ v, valueKey st.func v = valueKey f₀ v := fun v => valueKey_congr (h.thins.var v)
  rcases cseStep_cases ph st n with ⟨hfunc, hredirects, hseen⟩ |
    ⟨out, key, hlive, hpure, hout, hcase⟩
  · exact h.advance hfunc hredirects fun x k hk => .inl (hseen ▸ hk)
  · have hout₀ : (f₀.op n).output = some out := by
      rw [← h.thins.output]
      exact hout
    have hself : resolveRedirect st.redirects (valueKey st.func out) = valueKey f₀ out := by
      rw [hkey]
      exact resolve_live hrec h hlive hout₀
    rw [hself] at hcase
    rcases hcase with ⟨hfunc, hredirects, hseen⟩ | ⟨existing, hold, hfunc, hseen, hredirects⟩
    · refine h.advance hfunc hredirects fun x k hk => ?_
      rw [hseen] at hk
      by_cases hx : x = key
      · subst hx
        rw [AList.lookup_insert] at hk
        exact .inr ⟨out, hlive, hout₀, some.inj hk⟩
      · rw [AList.lookup_insert_ne hx] at hk
        exact .inl hk
    · -- the operation dies: its key was not redirected before, and no target is its key
      have hn' : n < st.func.ops.length := by
        rw [h.thins.length]
        exact hn
      have hkept : ∀ a, a < n → (st.func.op a).dead = false → ((kill st.func n).op a).dead = false := by
        intro a hlt ha
        rw [op_kill hn', if_neg (by omega)]
        exact ha
      refine ⟨?_, fun j hj => ?_, fun x k hk => ?_, fun k e he => ?_, fun k e he => ?_,
        fun b hb hb₀ => ?_⟩
      · rw [hfunc]
        refine h.thins.kill hn' ?_
        unfold candidate
        rw [hlive, hout]
        cases hop : (st.func.op n).opcode <;> rw [hop] at hpure <;> first | rfl | cases hpure
      · rw [hfunc, op_kill hn', if_neg (by omega)]
        exact h.ahead j (by omega)
      · rw [hseen] at hk
        rw [hfunc]
        obtain ⟨a, w, ha, hlt, hw⟩ := h.seen x k hk
        exact ⟨a, w, hkept a hlt ha, by omega, hw⟩
      · rw [hredirects] at he
        rw [hfunc]
        by_cases hk : k = valueKey f₀ out
        · subst hk
          exact ⟨n, out, (dead_kill hn' n).mpr (.inl rfl), h.thins.lives hlive, hout₀, rfl⟩
        · rw [AList.lookup_insert_ne hk] at he
          obtain ⟨b, w, hb, hw⟩ := h.source k e he
          exact ⟨b, w, (dead_kill hn' b).mpr (.inr hb), hw⟩
      · rw [hredirects] at he
        rw [hfunc]
        have htarget : ∃ a w, (st.func.op a).dead = false ∧ a < n ∧ (f₀.op a).output = some w ∧
            valueKey f₀ w = e := by
          by_cases hk : k = valueKey f₀ out
          · subst hk
            rw [AList.lookup_insert] at he
            obtain rfl := some.inj he
            exact h.seen key existing hold
          · rw [AList.lookup_insert_ne hk] at he
            exact h.target k e he
        obtain ⟨a, w, ha, hlt, hw⟩ := htarget
        exact ⟨a, w, hkept a hlt ha, by omega, hw⟩
      · rw [hfunc, dead_kill hn'] at hb
        rw [hredirects]
        rcases hb with rfl | hb
        · exact ⟨out, hout₀, existing, AList.lookup_insert _⟩
        · obtain ⟨w, hw, e, he⟩ := h.killed b hb hb₀
          refine ⟨w, hw, ?_⟩
          by_cases hk : valueKey f₀ w = valueKey f₀ out
          · rw [hk]
            exact ⟨existing, AList.lookup_insert _⟩
          · exact ⟨e, by rw [AList.lookup_insert_ne hk]; exact he⟩

end Search

theorem searched_all (hrec : Recorded f₀) (ph : Phantoms) {st : CseState}
    (h : Searched f₀ 0 st) {n : ℕ} (hn : n ≤ f₀.ops.length) :
    Searched f₀ n ((List.range n).foldl (cseStep ph) st) := by
  induction n with
  | zero => exact h
  | succ n ih =>
    rw [range_succ, foldl_append]
    exact searched_step hrec (ih (by omega)) ph (by omega)

def renamedValues (f : SsaFunction) (r : Redirects) : SsaFunction :=
  { f with varnodes := f.varnodes.map (renameVar r (bloomOf r.keys)) }

variable {v : ℕ} {targets : List ValueKey}

section Rename

variable (f : SsaFunction) (r : Redirects)

theorem var_renamedValues (hv : v < f.varnodes.length) :
    (renamedValues f r).var v = renameVar r (bloomOf r.keys) (f.var v) := by
  unfold SsaFunction.var renamedValues
  simp only
  rw [getD_eq_getElem _ _ (by rwa [length_map]), getElem_map, getD_eq_getElem _ _ hv]

theorem renameVar_links (bloom : U64) (vn : SsaVarnode) :
    (renameVar r bloom vn).defOp = vn.defOp ∧ (renameVar r bloom vn).uses = vn.uses := by
  unfold renameVar
  split
  · exact ⟨rfl, rfl⟩
  · simp only
    split <;> exact ⟨rfl, rfl⟩

theorem var_renamedValues_of_ge (hv : ¬ v < f.varnodes.length) :
    (renamedValues f r).var v = f.var v := by
  refine Eq.trans (b := default) ?_ (getD_eq_default _ _ (Nat.le_of_not_lt hv)).symm
  refine getD_eq_default _ _ ?_
  unfold renamedValues
  rw [length_map]
  exact Nat.le_of_not_lt hv

theorem links_renamedValues (v : ℕ) : ((renamedValues f r).var v).defOp = (f.var v).defOp ∧
      ((renamedValues f r).var v).uses = (f.var v).uses := by
  by_cases hv : v < f.varnodes.length
  · rw [var_renamedValues f r hv]
    exact renameVar_links r _ _
  · rw [var_renamedValues_of_ge f r hv]
    exact ⟨rfl, rfl⟩

/-- Constants keep their names. -/
theorem renameVar_const {bloom : U64} {vn : SsaVarnode} (h : vn.data.space = .const) :
    renameVar r bloom vn = vn := by
  unfold renameVar
  rw [if_pos (.inl h)]

/-- Other values get the end of the chain of their key. -/
theorem keyOf_renameVar {vn : SsaVarnode} (h : vn.data.space ≠ .const) :
    keyOf (renameVar r (bloomOf r.keys) vn) = resolveRedirect r (keyOf vn) := by
  unfold renameVar
  by_cases hbloom : bloomOf r.keys &&& keyBit (keyOf vn) = 0
  · -- a key the filter drops is not redirected
    rw [if_pos (.inr hbloom)]
    refine (resolve_of_none (AList.lookup_eq_none.mpr fun hmem => ?_)).symm
    exact bloomOf_and_keyBit (AList.mem_keys.mp hmem) hbloom
  · rw [if_neg (not_or.mpr ⟨h, hbloom⟩)]
    simp only
    split
    · rfl
    · next hsame => exact (not_not.mp hsame).symm

theorem isConst_of_renamed (h : (renamedValues f r).isConst v = false) : f.isConst v = false := by
  by_cases hv : v < f.varnodes.length
  · unfold SsaFunction.isConst at h ⊢
    rw [var_renamedValues f r hv] at h
    by_contra hc
    have hspace := of_decide_eq_true (not_eq_false _ ▸ hc)
    rw [renameVar_const r hspace] at h
    exact hc h
  · unfold SsaFunction.isConst at h ⊢
    rwa [var_renamedValues_of_ge f r hv] at h

theorem valueKey_renamed (hv : v < f.varnodes.length) (h : f.isConst v = false) :
    valueKey (renamedValues f r) v = resolveRedirect r (valueKey f v) := by
  unfold valueKey
  rw [var_renamedValues f r hv]
  exact keyOf_renameVar r (of_decide_eq_false h)

theorem mem_holdingOf {bloom targetBloom : U64} :
    (v, k) ∈ holdingOf f r bloom targetBloom targets ↔ v < f.varnodes.length ∧
      f.isConst v = false ∧ keyOf (renameVar r bloom (f.var v)) = k ∧
        targetBloom &&& keyBit k ≠ 0 ∧ k ∈ targets := by
  unfold holdingOf
  rw [mem_filterMap]
  constructor
  · rintro ⟨w, hw, hsome⟩
    simp only at hsome
    split at hsome
    · cases hsome
    · next hc =>
      split at hsome
      · next hin =>
        obtain ⟨rfl, rfl⟩ := Prod.mk.inj (some.inj hsome)
        exact ⟨mem_range.mp hw, not_eq_true _ ▸ hc, rfl, hin⟩
      · cases hsome
  · rintro ⟨hv, hc, rfl, hin⟩
    refine ⟨v, mem_range.mpr hv, ?_⟩
    simp only
    rw [if_neg (by rw [hc]; decide), if_pos hin]

theorem lookup_definedOf (holding : List (ℕ × ValueKey)) :
    (∀ k d, (definedOf f holding).lookup k = some d → (d, k) ∈ holding ∧ isDefined f d = true) ∧
    ∀ v k, (v, k) ∈ holding → isDefined f v = true →
      ∃ d, (definedOf f holding).lookup k = some d := by
  have hall : ∀ (l : List (ℕ × ValueKey)) (m : AList fun _ : ValueKey => ℕ),
      (∀ k d, (l.foldl (fun m e => if isDefined f e.1 then m.insert e.2 e.1 else m) m).lookup k =
        some d → m.lookup k = some d ∨ ((d, k) ∈ l ∧ isDefined f d = true)) ∧
      ∀ k, ((∃ d, m.lookup k = some d) ∨ ∃ v, (v, k) ∈ l ∧ isDefined f v = true) →
        ∃ d, (l.foldl (fun m e => if isDefined f e.1 then m.insert e.2 e.1 else m) m).lookup k =
          some d := by
    intro l
    induction l with
    | nil =>
      refine fun m => ⟨fun k d hd => .inl hd, fun k hk => ?_⟩
      exact hk.resolve_right fun ⟨v, hv, _⟩ => absurd hv not_mem_nil
    | cons e l ih =>
      obtain ⟨w, x⟩ := e
      intro m
      rw [foldl_cons]
      obtain ⟨hsound, hcomplete⟩ := ih (if isDefined f w then m.insert x w else m)
      refine ⟨fun k d hd => ?_, fun k hk => hcomplete k ?_⟩
      · rcases hsound k d hd with hm | ⟨hmem, hdef⟩
        · by_cases hw : isDefined f w = true
          · rw [if_pos hw] at hm
            by_cases hkx : k = x
            · subst hkx
              rw [AList.lookup_insert] at hm
              obtain rfl := some.inj hm
              exact .inr ⟨mem_cons_self, hw⟩
            · rw [AList.lookup_insert_ne hkx] at hm
              exact .inl hm
          · rw [if_neg hw] at hm
            exact .inl hm
        · exact .inr ⟨mem_cons_of_mem _ hmem, hdef⟩
      · by_cases hw : isDefined f w = true
        · rw [if_pos hw]
          by_cases hkx : k = x
          · subst hkx
            exact .inl ⟨w, AList.lookup_insert _⟩
          · rw [AList.lookup_insert_ne hkx]
            refine hk.imp id fun ⟨v, hv, hdef⟩ => ⟨v, ?_, hdef⟩
            rcases mem_cons.mp hv with heq | hv
            · exact absurd (Prod.mk.inj heq).2 hkx
            · exact hv
        · rw [if_neg hw]
          refine hk.imp id fun ⟨v, hv, hdef⟩ => ⟨v, ?_, hdef⟩
          rcases mem_cons.mp hv with heq | hv
          · rw [(Prod.mk.inj heq).1] at hdef
            exact absurd hdef hw
          · exact hv
  obtain ⟨hsound, hcomplete⟩ := hall holding ∅
  refine ⟨fun k d hd => ?_, fun v k hv hdef => hcomplete k (.inr ⟨v, hv, hdef⟩)⟩
  refine (hsound k d hd).resolve_left fun hempty => ?_
  rw [AList.lookup_empty] at hempty
  cases hempty

end Rename

section Replace

variable {g : SsaFunction} {old new : ℕ}

theorem foldl_replaceInput (old new : ℕ) (us : List ℕ) (g : SsaFunction) :
    (us.foldl (fun f u => replaceInput f old new u) g).varnodes = g.varnodes ∧
      ∀ o, ((us.foldl (fun f u => replaceInput f old new u) g).op o).dead = (g.op o).dead ∧
        ((us.foldl (fun f u => replaceInput f old new u) g).op o).output = (g.op o).output := by
  induction us generalizing g with
  | nil => exact ⟨rfl, fun _ => ⟨rfl, rfl⟩⟩
  | cons u us ih =>
    obtain ⟨hvars, hops⟩ := ih (replaceInput g old new u)
    refine ⟨hvars, fun o => ?_⟩
    obtain ⟨hd, ho⟩ := hops o
    exact ⟨hd.trans (dead_replaceInput g old new u o), ho.trans (output_replaceInput g old new u o)⟩

theorem mem_inputs_foldl (hne : new ≠ old) (us : List ℕ) (g : SsaFunction) {o : ℕ}
    (hv : v ∈ ((us.foldl (fun f u => replaceInput f old new u) g).op o).inputs) :
    (v ∈ (g.op o).inputs ∧ (v = old → o ∉ us)) ∨ (v = new ∧ old ∈ (g.op o).inputs ∧ o ∈ us) := by
  induction us generalizing g with
  | nil => exact .inl ⟨hv, fun _ => not_mem_nil⟩
  | cons u us ih =>
    rcases ih (replaceInput g old new u) hv with ⟨hin, hnot⟩ | ⟨rfl, hin, hmem⟩
    · by_cases hou : o = u
      · subst hou
        rw [op_replaceInput, if_pos rfl] at hin
        obtain ⟨w, hw, hwv⟩ := mem_map.mp hin
        by_cases hwo : w = old
        · rw [if_pos hwo] at hwv
          subst hwv hwo
          exact .inr ⟨rfl, hw, mem_cons_self⟩
        · rw [if_neg hwo] at hwv
          subst hwv
          exact .inl ⟨hw, fun heq => absurd heq hwo⟩
      · rw [op_replaceInput, if_neg hou] at hin
        refine .inl ⟨hin, fun heq hmem => hnot heq ?_⟩
        exact (mem_cons.mp hmem).resolve_left hou
    · refine .inr ⟨rfl, ?_, mem_cons_of_mem _ hmem⟩
      refine (mem_inputs_replaceInput hin).resolve_right fun h => ?_
      exact hne h.2.1.symm

theorem mem_foldl_pushReader (us uses : List ℕ) {o : ℕ} :
    o ∈ us.foldl pushReader uses ↔ o ∈ uses ∨ o ∈ us := by
  induction us generalizing uses with
  | nil => simp
  | cons u us ih =>
    rw [foldl_cons, ih, mem_cons]
    unfold pushReader
    split
    · next hu =>
      constructor
      · exact fun h => h.imp_right .inr
      · rintro (h | rfl | h)
        · exact .inl h
        · exact .inl hu
        · exact .inr h
    · rw [mem_append, mem_singleton, or_assoc]

end Replace

/-- Between two holders: what the live operations read is recorded, and each value they read
has its definition alive or waits for its readers to move. -/
structure Moving (f g₀ : SsaFunction) (defined : AList fun _ : ValueKey => ℕ)
    (rest : List (ℕ × ValueKey)) (g : SsaFunction) : Prop where
  dead : ∀ o, (g.op o).dead = (f.op o).dead
  outputs : ∀ o, (g.op o).output = (f.op o).output
  length : g.varnodes.length = g₀.varnodes.length
  names : ∀ v, (g.var v).data = (g₀.var v).data ∧ (g.var v).version = (g₀.var v).version
  range : FoldPass.InputsInRange g
  uses : ∀ o v, (f.op o).dead = false → v ∈ (g.op o).inputs → g₀.isConst v = false →
    o ∈ (g.var v).uses
  output : ∀ d w, (f.op d).dead = false → (f.op d).output = some w → (g.var w).defOp = some d
  settled : ∀ o v d, (f.op o).dead = false → v ∈ (g.op o).inputs → g₀.isConst v = false →
    (g.var v).defOp = some d → ((f.op d).dead = false ∧ (f.op d).output = some v) ∨
      ∃ k x, (v, k) ∈ rest ∧ defined.lookup k = some x ∧ x ≠ v

section Move

variable {f g₀ g : SsaFunction} {defined : AList fun _ : ValueKey => ℕ} {rest : List (ℕ × ValueKey)}

theorem var_setVar_of_ne {w : ℕ} (h : w ≠ v) (vn : SsaVarnode) :
    (g.setVar v vn).var w = g.var w := by
  unfold SsaFunction.setVar SsaFunction.var
  rw [getD_eq_getElem?_getD, getElem?_set_ne (Ne.symm h), getD_eq_getElem?_getD]

theorem isDefined_iff : isDefined g v = true ↔
    ∃ d, (g.var v).defOp = some d ∧ (g.op d).dead = false ∧ (g.op d).output = some v := by
  unfold isDefined
  cases (g.var v).defOp with
  | none => simp
  | some d => simp

theorem moving_step {e : ℕ × ValueKey} (h : Moving f g₀ defined (e :: rest) g)
    (hchosen : ∀ d, defined.lookup e.2 = some d → ∃ o, (f.op o).dead = false ∧
      (f.op o).output = some d)
    (hunique : ∀ d o, defined.lookup e.2 = some d → (f.op o).dead = false →
      (f.op o).output = some e.1 → e.1 = d)
    (hlt : e.1 < g₀.varnodes.length) :
    Moving f g₀ defined rest (moveReaders defined g e) := by
  obtain ⟨i, k⟩ := e
  simp only at hchosen hunique hlt
  unfold moveReaders
  simp only
  have hskip (hk : ∀ d, defined.lookup k = some d → d = i) : Moving f g₀ defined rest g := by
    refine { h with settled := fun o v x ho hv hc hx => ?_ }
    refine (h.settled o v x ho hv hc hx).imp_right ?_
    rintro ⟨k', y, hmem, hy, hne⟩
    rcases mem_cons.mp hmem with heq | hmem
    · obtain ⟨rfl, rfl⟩ := Prod.mk.inj heq
      exact absurd (hk y hy) hne
    · exact ⟨k', y, hmem, hy, hne⟩
  cases hd : defined.lookup k with
  | none => exact hskip fun d hd' => absurd (hd.symm.trans hd') (by simp)
  | some d =>
    simp only
    obtain ⟨p, hp, hpd⟩ := hchosen d hd
    split
    · next hdi => exact hskip fun y hy => (some.inj (hy.symm.trans hd)).trans hdi
    · next hdi =>
      -- no live operation writes this holder
      have hunwritten : ∀ o, (f.op o).dead = false → (f.op o).output ≠ some i := fun o ho hw =>
        hdi (hunique d o hd ho hw).symm
      have hown : isDefined g i = false := by
        refine eq_false_iff.mpr fun hdef => ?_
        obtain ⟨o, -, ho, hout⟩ := isDefined_iff.mp hdef
        rw [h.dead] at ho
        rw [h.outputs] at hout
        exact hunwritten o ho hout
      rw [hown]
      simp only [false_eq_true, if_false]
      generalize hg₁ : g.setVar i { g.var i with defOp := (g.var d).defOp, uses := [] } = g₁
      obtain ⟨hvars, hops⟩ := foldl_replaceInput i d (g.var i).uses g₁
      have hinputs : ∀ o v,
          v ∈ (((g.var i).uses.foldl (fun f u => replaceInput f i d u) g₁).op o).inputs →
            (v ∈ (g.op o).inputs ∧ (v = i → o ∉ (g.var i).uses)) ∨
              (v = d ∧ i ∈ (g.op o).inputs ∧ o ∈ (g.var i).uses) := by
        subst hg₁
        exact fun o v hv => mem_inputs_foldl hdi (g.var i).uses (g.setVar i _) hv
      generalize (g.var i).uses.foldl (fun f u => replaceInput f i d u) g₁ = g₂
        at hvars hops hinputs ⊢
      subst hg₁
      have hlen₂ : g₂.varnodes.length = g.varnodes.length := by
        rw [hvars]
        exact length_set
      have hvar₂ : ∀ v, v ≠ i → g₂.var v = g.var v := fun v hv =>
        (congrArg (fun vs => vs.getD v default) hvars).trans (var_setVar_of_ne hv _)
      have hvarᵢ : g₂.var i = { g.var i with defOp := (g.var d).defOp, uses := [] } := by
        refine (congrArg (fun vs => vs.getD i default) hvars).trans ?_
        exact (g.var_setVar (by rw [h.length]; exact hlt) _ i).trans (if_pos rfl)
      have hdefd : (g.var d).defOp = some p := h.output p d hp hpd
      have hdlt : d < g₂.varnodes.length := by
        rw [hlen₂]
        exact lt_of_defOp hdefd
      -- the values at the end
      have hvar : ∀ v, v ≠ i → v ≠ d → ((g₂.setVar d { g₂.var d with
          uses := (g.var i).uses.foldl pushReader (g₂.var d).uses }).var v) = g.var v :=
        fun v hvi hvd => (var_setVar_of_ne hvd _).trans (hvar₂ v hvi)
      have hvard : ((g₂.setVar d { g₂.var d with
          uses := (g.var i).uses.foldl pushReader (g₂.var d).uses }).var d) =
            { g.var d with uses := (g.var i).uses.foldl pushReader (g.var d).uses } := by
        rw [g₂.var_setVar hdlt, if_pos rfl, hvar₂ d hdi]
      have hvari : ((g₂.setVar d { g₂.var d with
          uses := (g.var i).uses.foldl pushReader (g₂.var d).uses }).var i) =
            { g.var i with defOp := (g.var d).defOp, uses := [] } :=
        (var_setVar_of_ne (Ne.symm hdi) _).trans hvarᵢ
      -- no live operation reads the holder any more
      have hmoved : ∀ o v, (f.op o).dead = false → g₀.isConst v = false → v ∈ (g₂.op o).inputs →
          v ≠ i ∧ (v ∈ (g.op o).inputs ∨ (v = d ∧ o ∈ (g.var i).uses)) := by
        intro o v ho hc hv
        rcases hinputs o v hv with ⟨hin, hnot⟩ | ⟨rfl, -, hmem⟩
        · refine ⟨?_, .inl hin⟩
          rintro rfl
          exact hnot rfl (h.uses o v ho hin hc)
        · exact ⟨hdi, .inr ⟨rfl, hmem⟩⟩
      constructor
      · exact fun o => (hops o).1.trans (h.dead o)
      · exact fun o => (hops o).2.trans (h.outputs o)
      · refine Eq.trans ?_ (hlen₂.trans h.length)
        exact length_set
      · intro v
        by_cases hvi : v = i
        · subst hvi
          rw [hvari]
          exact h.names v
        · by_cases hvd : v = d
          · subst hvd
            rw [hvard]
            exact h.names v
          · rw [hvar v hvi hvd]
            exact h.names v
      · intro o v hv
        have hgoal : v < g.varnodes.length := by
          rcases hinputs o v hv with ⟨hin, -⟩ | ⟨rfl, -, -⟩
          · exact h.range o v hin
          · exact lt_of_defOp hdefd
        refine lt_of_lt_of_eq hgoal (hlen₂.symm.trans ?_)
        exact length_set.symm
      · intro o v ho hv hc
        obtain ⟨hvi, hcase⟩ := hmoved o v ho hc hv
        by_cases hvd : v = d
        · subst hvd
          rw [hvard, mem_foldl_pushReader]
          rcases hcase with hin | ⟨-, hmem⟩
          · exact .inl (h.uses o v ho hin hc)
          · exact .inr hmem
        · rw [hvar v hvi hvd]
          exact h.uses o v ho (hcase.resolve_right fun hc => hvd hc.1) hc
      · intro q w hq hw
        have hwi : w ≠ i := by
          rintro rfl
          exact hunwritten q hq hw
        have hdef := h.output q w hq hw
        by_cases hwd : w = d
        · subst hwd
          rw [hvard]
          exact hdef
        · rw [hvar w hwi hwd]
          exact hdef
      · intro o v q ho hv hc hq
        obtain ⟨hvi, hcase⟩ := hmoved o v ho hc hv
        by_cases hvd : v = d
        · subst hvd
          rw [hvard] at hq
          obtain rfl := some.inj (hdefd.symm.trans hq)
          exact .inl ⟨hp, hpd⟩
        · rw [hvar v hvi hvd] at hq
          refine (h.settled o v q ho (hcase.resolve_right fun hc => hvd hc.1) hc hq).imp_right ?_
          rintro ⟨k', y, hmem, hy, hne⟩
          refine ⟨k', y, (mem_cons.mp hmem).resolve_left fun heq => ?_, hy, hne⟩
          exact hvi (Prod.mk.inj heq).1

end Move

section Apply

variable {f₀ : SsaFunction} {n : ℕ} {st : CseState} (hrec : Recorded f₀) (h : Searched f₀ n st)
include hrec h

theorem defOp_live {d w : ℕ} (hd : (st.func.op d).dead = false)
    (hw : (f₀.op d).output = some w) : (f₀.var w).defOp = some d :=
  hrec.output d w (h.thins.lives hd) hw

theorem valueKey_live {d w : ℕ} (hd : (st.func.op d).dead = false)
    (hw : (f₀.op d).output = some w) :
    valueKey (renamedValues st.func st.redirects) w = valueKey f₀ w := by
  have hsame : valueKey st.func w = valueKey f₀ w := valueKey_congr (h.thins.var w)
  have hlt : w < st.func.varnodes.length := by
    rw [h.thins.varnodes]
    exact lt_of_defOp (defOp_live hrec h hd hw)
  by_cases hc : st.func.isConst w = true
  · rw [← hsame]
    unfold valueKey
    rw [var_renamedValues _ _ hlt, renameVar_const _ (of_decide_eq_true hc)]
  · rw [valueKey_renamed _ _ hlt (not_eq_true _ ▸ hc), hsame]
    exact resolve_live hrec h hd hw

theorem mem_targets {e : ValueKey} (hk : st.redirects.lookup k = some e) :
    e ∈ st.redirects.entries.map fun e => resolveRedirect st.redirects e.2 := by
  refine mem_map.mpr ⟨⟨k, e⟩, AList.mem_lookup_iff.mp hk, ?_⟩
  obtain ⟨a, w, ha, -, hw, rfl⟩ := h.target k e hk
  exact resolve_live hrec h ha hw

theorem chosen_spec {bloom : U64} {d : ℕ}
    (hd : (definedOf st.func (holdingOf st.func st.redirects (bloomOf st.redirects.keys) bloom
    targets)).lookup k = some d) :
    ∃ o, (st.func.op o).dead = false ∧ (st.func.op o).output = some d ∧ valueKey f₀ d = k := by
  obtain ⟨hmem, hdef⟩ := (lookup_definedOf st.func _).1 k d hd
  obtain ⟨o, -, ho, hout⟩ := isDefined_iff.mp hdef
  obtain ⟨hlt, -, hkey, -⟩ := (mem_holdingOf st.func st.redirects).mp hmem
  have hout₀ : (f₀.op o).output = some d := by
    rw [← h.thins.output]
    exact hout
  refine ⟨o, ho, hout, (valueKey_live hrec h ho hout₀).symm.trans ?_⟩
  unfold valueKey
  rw [var_renamedValues _ _ hlt]
  exact hkey

theorem moving_start (targets : List ValueKey)
    (htargets : ∀ k e, st.redirects.lookup k = some e → e ∈ targets) :
    Moving st.func (renamedValues st.func st.redirects)
      (definedOf st.func (holdingOf st.func st.redirects (bloomOf st.redirects.keys)
        (bloomOf targets) targets))
      (holdingOf st.func st.redirects (bloomOf st.redirects.keys) (bloomOf targets) targets)
      (renamedValues st.func st.redirects) := by
  have hthins := h.thins
  refine ⟨fun _ => rfl, fun _ => rfl, rfl, fun _ => ⟨rfl, rfl⟩, fun o v hv => ?_,
    fun o v ho hv hc => ?_, fun d w hd hw => ?_, fun o v d ho hv hc hd => ?_⟩
  · have hlt := hrec.range o v (by rw [← hthins.inputs]; exact hv)
    unfold renamedValues
    rw [length_map, hthins.varnodes]
    exact hlt
  · rw [(links_renamedValues _ _ v).2, hthins.var]
    have hconst := isConst_of_renamed _ _ hc
    rw [isConst_congr (congrArg SsaVarnode.data (hthins.var v))] at hconst
    exact hrec.uses o v (hthins.lives ho) (by rw [← hthins.inputs]; exact hv) hconst
  · rw [(links_renamedValues _ _ w).1, hthins.var]
    exact hrec.output d w (hthins.lives hd) (by rw [← hthins.output]; exact hw)
  · rw [(links_renamedValues _ _ v).1, hthins.var] at hd
    have hin : v ∈ (f₀.op o).inputs := by
      rw [← hthins.inputs]
      exact hv
    have hconst := isConst_of_renamed _ _ hc
    have hconst₀ := hconst
    rw [isConst_congr (congrArg SsaVarnode.data (hthins.var v))] at hconst₀
    obtain ⟨hlive₀, hout₀⟩ := hrec.defined o v d (hthins.lives ho) hin hconst₀ hd
    cases hdead : (st.func.op d).dead with
    | false =>
      left
      rw [hthins.output]
      exact ⟨rfl, hout₀⟩
    | true =>
      -- the definition died: the kept one with the new key takes the readers
      right
      obtain ⟨w, hw, e, he⟩ := h.killed d hdead hlive₀
      obtain rfl : v = w := some.inj (hout₀.symm.trans hw)
      obtain ⟨a, x, ha, -, hax, hxe⟩ := h.target _ e he
      have hlt : v < st.func.varnodes.length := by
        rw [hthins.varnodes]
        exact hrec.range o v hin
      have hsame : valueKey st.func v = valueKey f₀ v := valueKey_congr (hthins.var v)
      have hnewv : valueKey (renamedValues st.func st.redirects) v = e := by
        rw [valueKey_renamed _ _ hlt hconst, hsame]
        exact resolve_redirected hrec h he
      have hnewx : valueKey (renamedValues st.func st.redirects) x = e :=
        (valueKey_live hrec h ha hax).trans hxe
      have hdefx : (st.func.var x).defOp = some a := by
        rw [hthins.var]
        exact defOp_live hrec h ha hax
      have hltx : x < st.func.varnodes.length := lt_of_defOp hdefx
      -- the kept output has the space of the renamed value
      have hconstx : st.func.isConst x = false := by
        refine isConst_of_renamed _ st.redirects ?_
        have hspace := congrArg (fun key : ValueKey => key.1.1) (hnewx.trans hnewv.symm)
        have hdata : ((renamedValues st.func st.redirects).var x).data.space =
            ((renamedValues st.func st.redirects).var v).data.space := hspace
        unfold SsaFunction.isConst at hc ⊢
        rw [hdata]
        exact hc
      have hholds : ∀ u, u < st.func.varnodes.length → st.func.isConst u = false →
          valueKey (renamedValues st.func st.redirects) u = e →
            (u, e) ∈ holdingOf st.func st.redirects (bloomOf st.redirects.keys) (bloomOf targets)
              targets := by
        intro u hu hcu hkey
        have hmem := htargets _ e he
        refine (mem_holdingOf st.func st.redirects).mpr ⟨hu, hcu, ?_, bloomOf_and_keyBit hmem, hmem⟩
        unfold valueKey at hkey
        rwa [var_renamedValues _ _ hu] at hkey
      have hdefined : isDefined st.func x = true :=
        isDefined_iff.mpr ⟨a, hdefx, ha, by rw [hthins.output]; exact hax⟩
      obtain ⟨y, hy⟩ := (lookup_definedOf st.func _).2 x e (hholds x hltx hconstx hnewx) hdefined
      refine ⟨e, y, hholds v hlt hconst hnewv, hy, ?_⟩
      rintro rfl
      obtain ⟨p, hp, hpy, -⟩ := chosen_spec hrec h hy
      rw [hthins.output] at hpy
      have hpd : p = d := some.inj ((defOp_live hrec h hp hpy).symm.trans hd)
      rw [hpd, hdead] at hp
      cases hp

theorem moving_all (rest : List (ℕ × ValueKey))
    (hrest : ∀ e ∈ rest, e ∈ holdingOf st.func st.redirects (bloomOf st.redirects.keys)
    (bloomOf targets) targets) {g : SsaFunction}
    (hg : Moving st.func (renamedValues st.func st.redirects)
    (definedOf st.func (holdingOf st.func st.redirects (bloomOf st.redirects.keys)
    (bloomOf targets) targets)) rest g) :
    Moving st.func (renamedValues st.func st.redirects)
      (definedOf st.func (holdingOf st.func st.redirects (bloomOf st.redirects.keys)
        (bloomOf targets) targets)) []
      (rest.foldl (moveReaders (definedOf st.func (holdingOf st.func st.redirects
        (bloomOf st.redirects.keys) (bloomOf targets) targets))) g) := by
  induction rest generalizing g with
  | nil => exact hg
  | cons e rest ih =>
    obtain ⟨hlt, -, hkey, -⟩ := (mem_holdingOf st.func st.redirects).mp (hrest e mem_cons_self)
    refine ih (fun x hx => hrest x (mem_cons_of_mem _ hx)) (moving_step hg ?_ ?_ ?_)
    · intro d hd
      obtain ⟨o, ho, hout, -⟩ := chosen_spec hrec h hd
      exact ⟨o, ho, hout⟩
    · intro d o hd ho hout
      obtain ⟨p, hp, hpd, hpkey⟩ := chosen_spec hrec h hd
      rw [h.thins.output] at hout hpd
      have hename : valueKey f₀ e.1 = e.2 := by
        rw [← valueKey_live hrec h ho hout]
        unfold valueKey
        rw [var_renamedValues _ _ hlt]
        exact hkey
      exact hrec.distinct o p e.1 d (h.thins.lives ho) (h.thins.lives hp) hout hpd
        (hename.trans hpkey.symm)
    · unfold renamedValues
      rw [length_map]
      exact hlt

/-- Once every reader has moved the links are as before the pass. -/
theorem recorded_of_moving {defined : AList fun _ : ValueKey => ℕ} {g : SsaFunction}
    (hg : Moving st.func (renamedValues st.func st.redirects) defined [] g) : Recorded g := by
  have hconst : ∀ v, g.isConst v = (renamedValues st.func st.redirects).isConst v := fun v =>
    isConst_congr (hg.names v).1
  have hkey : ∀ d w, (st.func.op d).dead = false → (st.func.op d).output = some w →
      valueKey g w = valueKey f₀ w := by
    intro d w hd hw
    rw [h.thins.output] at hw
    rw [← valueKey_live hrec h hd hw]
    unfold valueKey keyOf
    rw [(hg.names w).1, (hg.names w).2]
  refine ⟨hg.range, fun o v ho hv hc => ?_, fun o v d ho hv hc hd => ?_, fun d w hd hw => ?_,
    fun d e w x hd he hw hx hk => ?_⟩
  · rw [hg.dead] at ho
    rw [hconst] at hc
    exact hg.uses o v ho hv hc
  · rw [hg.dead] at ho ⊢
    rw [hg.outputs]
    rw [hconst] at hc
    refine (hg.settled o v d ho hv hc hd).resolve_right ?_
    rintro ⟨k, x, hmem, -⟩
    exact absurd hmem not_mem_nil
  · rw [hg.dead] at hd
    rw [hg.outputs] at hw
    exact hg.output d w hd hw
  · rw [hg.dead] at hd he
    rw [hg.outputs] at hw hx
    rw [hkey d w hd hw, hkey e x he hx] at hk
    rw [h.thins.output] at hw hx
    exact hrec.distinct d e w x (h.thins.lives hd) (h.thins.lives he) hw hx hk

theorem recorded_applyRedirects : Recorded (applyRedirects st.func st.redirects) := by
  unfold applyRedirects
  split
  · next hempty =>
    -- nothing has died
    refine hrec.thin h.thins fun o v d ho hv hc hd => ?_
    obtain ⟨hlive, -⟩ := hrec.defined o v d (h.thins.lives ho) hv hc hd
    by_contra hdead
    obtain ⟨w, -, e, he⟩ := h.killed d (not_eq_false _ ▸ hdead) hlive
    have hmem := AList.mem_lookup_iff.mp he
    rw [hempty] at hmem
    exact absurd hmem not_mem_nil
  · have hend := moving_all hrec h _ (fun _ he => he) (moving_start hrec h
      (st.redirects.entries.map fun e => resolveRedirect st.redirects e.2)
      fun k e he => mem_targets hrec h he)
    exact recorded_of_moving hrec h hend

end Apply

variable {f : SsaFunction}

theorem recorded_cseInBlocks (hrec : Recorded f) (scan rescan : Option (List Bool)) :
    Recorded (cseInBlocks f scan rescan).func := by
  have hrec₀ : Recorded { f with phantomWrites := [], phantomRegs := [] } :=
    ⟨hrec.range, hrec.uses, hrec.defined, hrec.output, hrec.distinct⟩
  have hstart : Searched { f with phantomWrites := [], phantomRegs := [] } 0
      ⟨{ f with phantomWrites := [], phantomRegs := [] }, scan, rescan, 0, 0, ∅, ∅, ∅, none⟩ := by
    refine ⟨Thins.refl _, fun _ _ => rfl, fun key k hk => ?_, fun k e he => ?_, fun k e he => ?_,
      fun b hb hb₀ => ?_⟩
    · rw [AList.lookup_empty] at hk
      cases hk
    · rw [AList.lookup_empty] at he
      cases he
    · rw [AList.lookup_empty] at he
      cases he
    · exact absurd (hb.symm.trans hb₀) (by decide)
  exact recorded_applyRedirects hrec₀ (searched_all hrec₀ ⟨f.phantomWrites, f.phantomRegs⟩ hstart
    (le_refl _))

inductive Pass where
  | constAlgStrength
  | copyPropagation
  | commonSubexpressionElimination
  /-- In the blocks marked, as the rounds after the first run it. -/
  | cseInBlocks (scan rescan : Option (List Bool))
  | deadCodeElimination
  deriving DecidableEq, Repr

def Pass.run (f : SsaFunction) : Pass → SsaFunction
  | .constAlgStrength => (FoldRewrites.constAlgStrength f).func
  | .copyPropagation => (CommonSubexpressions.copyPropagation f).1
  | .commonSubexpressionElimination => (CommonSubexpressions.commonSubexpressionElimination f).1
  | .cseInBlocks scan rescan => (CommonSubexpressions.cseInBlocks f scan rescan).func
  | .deadCodeElimination => (DeadCode.deadCodeElimination f).1

def runPasses (passes : List Pass) (f : SsaFunction) : SsaFunction := passes.foldl Pass.run f

theorem recorded_run (h : Recorded f) (p : Pass) : Recorded (p.run f) := by
  cases p with
  | constAlgStrength => exact recorded_constAlgStrength h
  | copyPropagation => exact recorded_copyPropagation h
  | commonSubexpressionElimination => exact recorded_cseInBlocks h none none
  | cseInBlocks scan rescan => exact recorded_cseInBlocks h scan rescan
  | deadCodeElimination => exact recorded_deadCodeElimination h

theorem recorded_runPasses (passes : List Pass) (h : Recorded f) :
    Recorded (runPasses passes f) := by
  induction passes generalizing f with
  | nil => exact h
  | cons p passes ih => exact ih (recorded_run h p)

/-- The use-list invariant: a live operation is in the uses of every input that is no constant,
and the definition of such an input is a live operation writing it, or a value with its key. -/
def UsesLinked (f : SsaFunction) : Prop :=
  ∀ o < f.ops.length, (f.op o).dead = false → ∀ v ∈ (f.op o).inputs, f.isConst v = false →
    o ∈ (f.var v).uses ∧ ∀ d, (f.var v).defOp = some d → d < f.ops.length ∧
      (f.op d).dead = false ∧ ∃ w, (f.op d).output = some w ∧ (w = v ∨ valueKey f w = valueKey f v)

/-- Every pass keeps the use-list invariant of a function the SSA construction built. -/
theorem passes_keep_uses_linked (cfg : ControlFlowGraph)
    (hentry : cfg.blocks ≠ [] → cfg.entryBlock < cfg.blocks.length) (passes : List Pass) :
    UsesLinked (runPasses passes (fromCfg cfg)) := by
  have h := recorded_runPasses passes (recorded_fromCfg hentry)
  intro o _ ho v hv hc
  refine ⟨h.uses o v ho hv hc, fun d hd => ?_⟩
  obtain ⟨hlive, hout⟩ := h.defined o v d ho hv hc hd
  exact ⟨lt_of_output hout, hlive, v, hout, .inl rfl⟩

/-- Live operations read values of the function, and a live definition is the only one of its
slot and version. -/
def SingleAssignment (f : SsaFunction) : Prop :=
  (∀ o, ∀ v ∈ (f.op o).inputs, v < f.varnodes.length) ∧
    ∀ d e v w, (f.op d).dead = false → (f.op e).dead = false → (f.op d).output = some v →
      (f.op e).output = some w → valueKey f v = valueKey f w → d = e ∧ v = w

/-- No passes, in no order, give a value two live definitions. -/
theorem passes_keep_single_assignment (instructions : List LiftedInstruction) (passes : List Pass) :
    SingleAssignment (runPasses passes (fromCfg (ControlFlowGraph.build instructions))) := by
  have h := recorded_runPasses passes
    (recorded_fromCfg (build_wellFormed instructions).entry_lt)
  refine ⟨h.range, fun d e v w hd he hv hw hkey => ?_⟩
  obtain rfl := h.distinct d e v w hd he hv hw hkey
  -- a value names the one operation that defines it
  have hde : some d = some e := (h.output d v hd hv).symm.trans (h.output e v he hw)
  exact ⟨some.inj hde, rfl⟩

def clearedTwice : ControlFlowGraph where
  blocks := [⟨0, 0x1000, [ ⟨0x1000, 2, "xor edx, edx",
      [⟨.intZExt, some ⟨.register, 16, 8⟩, [⟨.const, 0, 4⟩]⟩]⟩,
    ⟨0x1002, 2, "xor eax, eax",
      [⟨.intZExt, some ⟨.register, 0, 8⟩, [⟨.const, 0, 4⟩]⟩]⟩,
    ⟨0x1004, 1, "ret", [⟨.return, none, [⟨.register, 0, 8⟩]⟩]⟩], [], []⟩]
  entryBlock := 0
  addrToBlock := []
  switches := OrderedMap.OrdMap.empty

/-- The second is removed, and the return reads the first. -/
theorem passes_keep_uses_linked_cleared_twice :
    UsesLinked (runPasses [.commonSubexpressionElimination, .deadCodeElimination,
      .constAlgStrength, .copyPropagation] (fromCfg clearedTwice)) ∧
      ((runPasses [.commonSubexpressionElimination] (fromCfg clearedTwice)).op 1).dead = true ∧
      ((runPasses [.commonSubexpressionElimination] (fromCfg clearedTwice)).op 2).inputs = [1] := by
  refine ⟨passes_keep_uses_linked clearedTwice (by decide) _, ?_, ?_⟩
  · decide +kernel
  · decide +kernel

end MovedReaders
