import Reargo.SsaScopes

/-!
# Readers and definitions after the renaming

Every operand is recorded as read by its operation, a value and the operation that defines it
know each other, and no two definitions share a version of one slot. Each small step of the
renaming keeps this on its own, whatever the graph looks like.
-/
namespace SsaLinks

open PcodeModel ControlFlow DominatorTree Dominators SsaModel SsaBuild SsaRenaming SsaScopes List
  Function
open Renaming (closePhi renameInput)

variable {cfg : ControlFlowGraph} {st st' st'' : Renaming} {idx : ℕ} {O : ℕ → Prop}
  {f : BuildOp → BuildOp}

def Used (st : Renaming) (i v : ℕ) : Prop := v < st.varnodes.length ∧ i ∈ (varOf st v).uses

structure Links (st : Renaming) : Prop where
  used : ∀ i v, some v ∈ (opOf st i).inputs → Used st i v
  scope : ∀ e ∈ st.entries, e.2 < st.varnodes.length
  incoming : ∀ k id, st.incoming k = some id → id < st.varnodes.length
  defined : ∀ v d, (varOf st v).defOp = some d → (opOf st d).output = some v
  output : ∀ d v, (opOf st d).output = some v → (varOf st v).defOp = some d
  bounded : ∀ v d, (varOf st v).defOp = some d →
    (varOf st v).version ≤ st.versions (slotOf (varOf st v).data)
  distinct : ∀ v w d e, (varOf st v).defOp = some d → (varOf st w).defOp = some e →
    slotOf (varOf st v).data = slotOf (varOf st w).data →
      (varOf st v).version = (varOf st w).version → v = w

/-- A step that defines nothing. -/
structure Adds (st st' : Renaming) : Prop where
  size : st.varnodes.length ≤ st'.varnodes.length
  vars : ∀ v, v < st.varnodes.length → (varOf st' v).data = (varOf st v).data ∧
    (varOf st' v).version = (varOf st v).version ∧ (varOf st' v).defOp = (varOf st v).defOp
  uses : ∀ v, v < st.varnodes.length → ∀ i ∈ (varOf st v).uses, i ∈ (varOf st' v).uses
  fresh : ∀ v, st.varnodes.length ≤ v → (varOf st' v).defOp = none
  versions : st'.versions = st.versions
  incoming : ∀ k id, st'.incoming k = some id →
    st.incoming k = some id ∨ id < st'.varnodes.length
  entries : st'.entries = st.entries
  length : st'.ops.length = st.ops.length
  output : ∀ i, (opOf st' i).output = (opOf st i).output
  shut : ∀ i j, st'.isOpen i j = true → st.isOpen i j = true

theorem varOf_of_le {v : ℕ} (hv : st.varnodes.length ≤ v) : varOf st v = default :=
  getD_eq_default _ _ hv

theorem lt_of_defOp {v d : ℕ} (h : (varOf st v).defOp = some d) : v < st.varnodes.length := by
  by_contra hge
  rw [varOf_of_le (Nat.le_of_not_lt hge)] at h
  cases h

theorem Adds.rfl : Adds st st :=
  ⟨le_refl _, fun _ _ => ⟨Eq.refl _, Eq.refl _, Eq.refl _⟩, fun _ _ _ h => h,
    fun v hv => by rw [varOf_of_le hv]; exact Eq.refl _, Eq.refl _, fun _ _ h => .inl h, Eq.refl _,
    Eq.refl _, fun _ => Eq.refl _, fun _ _ h => h⟩

theorem Adds.trans (h : Adds st st') (k : Adds st' st'') : Adds st st'' := by
  constructor
  · exact h.size.trans k.size
  · intro v hv
    obtain ⟨hd, hn, hf⟩ := h.vars v hv
    obtain ⟨kd, kn, kf⟩ := k.vars v (lt_of_lt_of_le hv h.size)
    exact ⟨kd.trans hd, kn.trans hn, kf.trans hf⟩
  · exact fun v hv i hi => k.uses v (lt_of_lt_of_le hv h.size) i (h.uses v hv i hi)
  · intro v hv
    by_cases hlt : v < st'.varnodes.length
    · exact (k.vars v hlt).2.2.trans (h.fresh v hv)
    · exact k.fresh v (Nat.le_of_not_lt hlt)
  · exact k.versions.trans h.versions
  · intro x id hx
    rcases k.incoming x id hx with hx | hx
    · exact (h.incoming x id hx).imp_right fun hlt => lt_of_lt_of_le hlt k.size
    · exact .inr hx
  · exact k.entries.trans h.entries
  · exact k.length.trans h.length
  · exact fun i => (k.output i).trans (h.output i)
  · exact fun i j hij => h.shut i j (k.shut i j hij)

theorem Used.adds {i v : ℕ} (h : Adds st st') (hu : Used st i v) : Used st' i v :=
  ⟨lt_of_lt_of_le hu.1 h.size, h.uses v hu.1 i hu.2⟩

theorem Adds.defOp {v d : ℕ} (h : Adds st st') :
    (varOf st' v).defOp = some d ↔ (varOf st v).defOp = some d := by
  by_cases hv : v < st.varnodes.length
  · rw [(h.vars v hv).2.2]
  · rw [h.fresh v (Nat.le_of_not_lt hv), varOf_of_le (Nat.le_of_not_lt hv)]
    exact .rfl

theorem Links.adds (h : Links st) (ha : Adds st st')
    (hused : ∀ i v, some v ∈ (opOf st' i).inputs → Used st' i v) : Links st' := by
  constructor
  · exact hused
  · intro e he
    rw [ha.entries] at he
    exact lt_of_lt_of_le (h.scope e he) ha.size
  · intro k id hk
    rcases ha.incoming k id hk with hk | hk
    · exact lt_of_lt_of_le (h.incoming k id hk) ha.size
    · exact hk
  · intro v d hd
    rw [ha.output]
    exact h.defined v d (ha.defOp.mp hd)
  · intro d v hv
    rw [ha.output] at hv
    exact ha.defOp.mpr (h.output d v hv)
  · intro v d hd
    have hd' := ha.defOp.mp hd
    obtain ⟨hdata, hversion, -⟩ := ha.vars v (lt_of_defOp hd')
    rw [hdata, hversion, ha.versions]
    exact h.bounded v d hd'
  · intro v w d e hd he hslot hver
    have hd' := ha.defOp.mp hd
    have he' := ha.defOp.mp he
    obtain ⟨hdata, hversion, -⟩ := ha.vars v (lt_of_defOp hd')
    obtain ⟨hdata', hversion', -⟩ := ha.vars w (lt_of_defOp he')
    rw [hdata, hdata'] at hslot
    rw [hversion, hversion'] at hver
    exact h.distinct v w d e hd' he' hslot hver

/-- Nothing but the values has changed. -/
theorem Links.adds_vars (h : Links st) (ha : Adds st st') (hops : st'.ops = st.ops) :
    Links st' := by
  refine h.adds ha fun i v hv => (h.used i v ?_).adds ha
  unfold opOf at hv ⊢
  rwa [hops] at hv

theorem adds_pushVar (st : Renaming) (vn : VarnodeData) (version : ℕ) :
    Adds st (st.pushVar vn version).1 := by
  have hold : ∀ v, v < st.varnodes.length → varOf (st.pushVar vn version).1 v = varOf st v :=
    fun v hv => varOf_append_lt hv
  have hlen : (st.pushVar vn version).1.varnodes.length = st.varnodes.length + 1 := by
    unfold Renaming.pushVar
    exact length_append
  refine ⟨by omega, fun v hv => ?_, fun v hv i hi => ?_, fun v hv => ?_, rfl, fun _ _ h => .inl h,
    rfl, rfl, fun _ => rfl, fun _ _ h => h⟩
  · rw [hold v hv]
    exact ⟨rfl, rfl, rfl⟩
  · rw [hold v hv]
    exact hi
  · by_cases heq : v = st.varnodes.length
    · subst heq
      exact congrArg SsaVarnode.defOp varOf_append_new
    · rw [varOf_of_le (by omega)]
      rfl

theorem length_pushVar (st : Renaming) (vn : VarnodeData) (version : ℕ) :
    (st.pushVar vn version).1.varnodes.length = st.varnodes.length + 1 := by
  unfold Renaming.pushVar
  exact length_append

/-- A lookup: the value is there, and no operation has changed. -/
structure Found (st : Renaming) (r : Renaming × ℕ) : Prop where
  adds : Adds st r.1
  ops : r.1.ops = st.ops
  lt : r.2 < r.1.varnodes.length

theorem found_incomingVar (h : Links st) (vn : VarnodeData) : Found st (st.incomingVar vn) := by
  unfold Renaming.incomingVar
  cases hin : st.incoming (slotOf vn) with
  | some id => exact ⟨Adds.rfl, rfl, h.incoming _ id hin⟩
  | none =>
    have hpush := adds_pushVar st vn (st.versions (slotOf vn))
    have hlen := length_pushVar st vn (st.versions (slotOf vn))
    refine ⟨⟨hpush.size, hpush.vars, hpush.uses, hpush.fresh, rfl, fun k id hk => ?_, rfl, rfl,
      fun _ => rfl, fun _ _ h => h⟩, rfl, ?_⟩
    · have hupdate : update st.incoming (slotOf vn) (some st.varnodes.length) k =
          some id := hk
      by_cases hkv : k = slotOf vn
      · subst hkv
        rw [update_self] at hupdate
        obtain rfl := Option.some.inj hupdate
        exact .inr (Nat.lt_of_lt_of_eq (Nat.lt_succ_self _) hlen.symm)
      · rw [update_of_ne hkv] at hupdate
        exact .inl hupdate
    · exact Nat.lt_of_lt_of_eq (Nat.lt_succ_self _) hlen.symm

theorem found_scopedVar (h : Links st) (vn : VarnodeData) : Found st (st.scopedVar vn) := by
  unfold Renaming.scopedVar
  cases hin : st.entries.lookup (slotOf vn) with
  | some id => exact ⟨Adds.rfl, rfl, h.scope _ (mem_of_lookup hin)⟩
  | none => exact found_incomingVar h vn

theorem adds_addUse (st : Renaming) (v idx : ℕ) : Adds st (st.addUse v idx) := by
  have hlen : (st.addUse v idx).varnodes.length = st.varnodes.length := by
    unfold Renaming.addUse
    exact length_modify ..
  refine ⟨by omega, fun x hx => ?_, fun x hx i hi => ?_, fun x hx => ?_, rfl, fun _ _ h => .inl h,
    rfl, rfl, fun _ => rfl, fun _ _ h => h⟩
  · rw [varOf_addUse]
    split <;> exact ⟨rfl, rfl, rfl⟩
  · rw [varOf_addUse]
    split
    · exact mem_append_left _ hi
    · exact hi
  · rw [varOf_of_le (by omega)]
    rfl

theorem used_addUse {v : ℕ} (hv : v < st.varnodes.length) (idx : ℕ) :
    Used (st.addUse v idx) idx v := by
  refine ⟨lt_of_lt_of_le hv (adds_addUse st v idx).size, ?_⟩
  rw [varOf_addUse, if_pos ⟨rfl, hv⟩]
  exact mem_append_right _ mem_cons_self

/-- New operands of one operation, none of them open. -/
theorem adds_modifyInputs (hout : ∀ o, (f o).output = o.output)
    (hopen : ∀ j : ℕ, (f (opOf st idx)).inputs[j]? = some none → (opOf st idx).inputs[j]? = some none) :
    Adds st (st.modifyOp idx f) := by
  by_cases hidx : idx < st.ops.length
  · have hop := opOf_modifyOp st hidx f
    refine ⟨le_refl _, fun _ _ => ⟨rfl, rfl, rfl⟩, fun _ _ _ h => h,
      fun v hv => congrArg SsaVarnode.defOp (varOf_of_le hv), rfl, fun _ _ h => .inl h, rfl, ?_,
      fun i => ?_, fun i j hij => ?_⟩
    · unfold Renaming.modifyOp
      exact length_modify ..
    · rw [hop i]
      split
      · exact hout _
      · rfl
    · have hnone : (opOf (st.modifyOp idx f) i).inputs[j]? = some none := of_decide_eq_true hij
      rw [hop i] at hnone
      by_cases hi : i = idx
      · subst hi
        rw [if_pos rfl] at hnone
        exact decide_eq_true (hopen j hnone)
      · rw [if_neg hi] at hnone
        exact decide_eq_true hnone
  · have hsame : st.modifyOp idx f = st := by
      unfold Renaming.modifyOp
      rw [modify_eq_self (Nat.le_of_not_lt hidx)]
    rw [hsame]
    exact Adds.rfl

theorem mem_inputs_modifyOp {i : ℕ} {x : Option ℕ} (hx : x ∈ (opOf (st.modifyOp idx f) i).inputs) :
    x ∈ (opOf st i).inputs ∨ (i = idx ∧ x ∈ (f (opOf st idx)).inputs) := by
  by_cases hidx : idx < st.ops.length
  · rw [opOf_modifyOp st hidx f] at hx
    by_cases hi : i = idx
    · subst hi
      rw [if_pos rfl] at hx
      exact .inr ⟨rfl, hx⟩
    · rw [if_neg hi] at hx
      exact .inl hx
  · left
    unfold Renaming.modifyOp opOf at hx
    rwa [modify_eq_self (Nat.le_of_not_lt hidx)] at hx

/-- What a run of steps keeps; operations of `O` may get an output. -/
structure Extends (O : ℕ → Prop) (st st' : Renaming) : Prop where
  links : Links st'
  length : st'.ops.length = st.ops.length
  output : ∀ i, ¬ O i → (opOf st' i).output = (opOf st i).output
  shut : ∀ i j, st'.isOpen i j = true → st.isOpen i j = true

theorem Extends.rfl (h : Links st) : Extends O st st :=
  ⟨h, Eq.refl _, fun _ _ => Eq.refl _, fun _ _ h => h⟩

theorem Extends.trans (h : Extends O st st') (k : Extends O st' st'') : Extends O st st'' :=
  ⟨k.links, k.length.trans h.length, fun i hi => (k.output i hi).trans (h.output i hi),
    fun i j hij => h.shut i j (k.shut i j hij)⟩

theorem Extends.mono {U : ℕ → Prop} (hOU : ∀ i, O i → U i) (h : Extends O st st') :
    Extends U st st' :=
  ⟨h.links, h.length, fun i hi => h.output i fun ho => hi (hOU i ho), h.shut⟩

theorem Adds.extends (h : Adds st st') (hl : Links st') : Extends (fun _ => False) st st' :=
  ⟨hl, h.length, fun i _ => h.output i, h.shut⟩

theorem extends_foldl {α : Type} (f : Renaming → α → Renaming)
    (hf : ∀ st a, Links st → Extends O st (f st a)) (l : List α) (st : Renaming) (h : Links st) :
    Extends O st (l.foldl f st) := by
  induction l generalizing st with
  | nil => exact Extends.rfl h
  | cons a l ih => exact (hf st a h).trans (ih _ (hf st a h).links)

theorem adds_setPhiInput (st : Renaming) (idx j v : ℕ) : Adds st (st.setPhiInput idx j v) := by
  refine (adds_addUse st v idx).trans (adds_modifyInputs (fun _ => rfl) fun x hx => ?_)
  by_cases hxj : j = x
  · subst hxj
    rw [getElem?_set_self'] at hx
    cases hold : (opOf (st.addUse v idx) idx).inputs[j]? with
    | none =>
      rw [hold] at hx
      cases hx
    | some _ =>
      rw [hold] at hx
      cases hx
  · rwa [getElem?_set_ne hxj] at hx

theorem extends_setPhiInput (h : Links st) {r : Renaming × ℕ} (hr : Found st r) (idx j : ℕ) :
    Extends (fun _ => False) st (r.1.setPhiInput idx j r.2) := by
  have ha := adds_setPhiInput r.1 idx j r.2
  refine (hr.adds.trans ha).extends ((h.adds_vars hr.adds hr.ops).adds ha fun i v hv => ?_)
  rcases mem_inputs_modifyOp hv with hv | ⟨rfl, hv⟩
  · exact ((h.adds_vars hr.adds hr.ops).used i v hv).adds ha
  · have hnew : Used (r.1.setPhiInput i j r.2) i r.2 := used_addUse hr.lt i
    rcases mem_or_eq_of_mem_set hv with hv | hv
    · exact ((h.adds_vars hr.adds hr.ops).used i v hv).adds ha
    · rw [Option.some.inj hv]
      exact hnew

theorem extends_define (h : Links st) (vn : VarnodeData) (hidx : idx < st.ops.length)
    (hnone : (opOf st idx).output = none) : Extends (· = idx) st (st.define vn idx) := by
  obtain ⟨hlen, hops⟩ := length_define st vn idx
  have hold : ∀ v, v ≠ st.varnodes.length → varOf (st.define vn idx) v = varOf st v := by
    intro v hv
    by_cases hlt : v < st.varnodes.length
    · exact varOf_define_of_lt vn idx hlt
    · rw [varOf_of_le (by omega), varOf_of_le (by omega)]
  have hnew := varOf_define_new st vn idx
  have hop : ∀ i, opOf (st.define vn idx) i = if i = idx then
      { opOf st i with output := some st.varnodes.length } else opOf st i :=
    fun i => opOf_modifyOp _ hidx _ i
  have hinputs : ∀ i, (opOf (st.define vn idx) i).inputs = (opOf st i).inputs := by
    intro i
    rw [hop i]
    split <;> rfl
  have hversions : (st.define vn idx).versions =
      update st.versions (slotOf vn) (st.versions (slotOf vn) + 1) := rfl
  have hle : ∀ k, st.versions k ≤ (st.define vn idx).versions k := by
    intro k
    rw [hversions]
    by_cases hk : k = slotOf vn
    · rw [hk, update_self]
      omega
    · rw [update_of_ne hk]
  -- a version of its own: every earlier one is lower
  have hlower : ∀ w e, w ≠ st.varnodes.length → (varOf st w).defOp = some e →
      slotOf (varOf st w).data = slotOf vn →
        (varOf st w).version ≠ st.versions (slotOf vn) + 1 := by
    intro w e _ he hslot hver
    have hb := h.bounded w e he
    rw [hslot] at hb
    omega
  refine ⟨⟨?_, ?_, ?_, ?_, ?_, ?_, ?_⟩, hops, ?_, ?_⟩
  · intro i v hv
    rw [hinputs i] at hv
    obtain ⟨hlt, huse⟩ := h.used i v hv
    refine ⟨by omega, ?_⟩
    rw [hold v (by omega)]
    exact huse
  · intro e he
    rcases mem_cons.mp he with rfl | he
    · simp only
      omega
    · have hlt := h.scope e he
      omega
  · intro k id hk
    have hlt := h.incoming k id hk
    omega
  · intro v d hd
    by_cases hv : v = st.varnodes.length
    · subst hv
      rw [hnew] at hd
      obtain rfl := Option.some.inj hd
      rw [hop, if_pos rfl]
    · rw [hold v hv] at hd
      have hout := h.defined v d hd
      rw [hop, if_neg (by rintro rfl; rw [hnone] at hout; cases hout)]
      exact hout
  · intro d v hv
    rw [hop] at hv
    split at hv
    · next hd =>
      obtain rfl : st.varnodes.length = v := Option.some.inj hv
      rw [hnew, hd]
    · have hd := h.output d v hv
      rw [hold v (by have := lt_of_defOp hd; omega)]
      exact hd
  · intro v d hd
    by_cases hv : v = st.varnodes.length
    · subst hv
      rw [hnew, hversions, update_self]
    · rw [hold v hv] at hd ⊢
      exact (h.bounded v d hd).trans (hle _)
  · intro v w d e hd he hslot hver
    by_cases hv : v = st.varnodes.length
    · by_cases hw : w = st.varnodes.length
      · rw [hv, hw]
      · rw [hv, hnew, hold w hw] at hslot hver
        rw [hold w hw] at he
        exact absurd hver.symm (hlower w e hw he hslot.symm)
    · by_cases hw : w = st.varnodes.length
      · rw [hw, hnew, hold v hv] at hslot hver
        rw [hold v hv] at hd
        exact absurd hver (hlower v d hv hd hslot)
      · rw [hold v hv, hold w hw] at hslot hver
        rw [hold v hv] at hd
        rw [hold w hw] at he
        exact h.distinct v w d e hd he hslot hver
  · intro i hi
    rw [hop i, if_neg hi]
  · intro i j hij
    have hnone' : (opOf (st.define vn idx) i).inputs[j]? = some none := of_decide_eq_true hij
    rw [hinputs i] at hnone'
    exact decide_eq_true hnone'

theorem foldl_renameInput_links (idx : ℕ) (inputs : List VarnodeData) (st : Renaming)
    (ids : List ℕ) (h : Links st) (hids : ∀ v ∈ ids, Used st idx v) :
    Adds st (inputs.foldl (renameInput idx) (st, ids)).1 ∧
      (inputs.foldl (renameInput idx) (st, ids)).1.ops = st.ops ∧
      ∀ v ∈ (inputs.foldl (renameInput idx) (st, ids)).2,
        Used (inputs.foldl (renameInput idx) (st, ids)).1 idx v := by
  induction inputs generalizing st ids with
  | nil => exact ⟨Adds.rfl, rfl, hids⟩
  | cons inp inputs ih =>
    have hfound : ∃ r, Found st r ∧
        renameInput idx (st, ids) inp = (r.1.addUse r.2 idx, ids ++ [r.2]) := by
      unfold renameInput
      by_cases hc : inp.space = SpaceId.const
      · simp only [if_pos hc]
        refine ⟨st.constVar inp, ⟨adds_pushVar st inp 0, rfl, ?_⟩, rfl⟩
        exact Nat.lt_of_lt_of_eq (Nat.lt_succ_self _) (length_pushVar st inp 0).symm
      · simp only [if_neg hc]
        exact ⟨st.scopedVar inp, found_scopedVar h inp, rfl⟩
    obtain ⟨r, hr, hstep⟩ := hfound
    rw [foldl_cons, hstep]
    have hadds := hr.adds.trans (adds_addUse r.1 r.2 idx)
    have hops : (r.1.addUse r.2 idx).ops = st.ops := hr.ops
    obtain ⟨hadds', hops', hused⟩ := ih (r.1.addUse r.2 idx) (ids ++ [r.2])
      (h.adds_vars hadds hops) (by
        intro v hv
        rcases mem_append.mp hv with hv | hv
        · exact (hids v hv).adds hadds
        · rw [mem_singleton.mp hv]
          exact used_addUse hr.lt idx)
    exact ⟨hadds.trans hadds', hops'.trans hops, hused⟩

theorem extends_renameOp (h : Links st) (hidx : idx < st.ops.length)
    (hnone : (opOf st idx).output = none) (code : U64 × PcodeOp) :
    (Renaming.renameOp (st, idx) code).2 = idx + 1 ∧
      Extends (· = idx) st (Renaming.renameOp (st, idx) code).1 := by
  obtain ⟨hadds, hops, hused⟩ := foldl_renameInput_links idx code.2.inputs st [] h
    fun v hv => absurd hv not_mem_nil
  unfold Renaming.renameOp
  simp only
  generalize code.2.inputs.foldl (renameInput idx) (st, []) = r at hadds hops hused ⊢
  obtain ⟨st₁, ids⟩ := r
  simp only at hadds hops hused ⊢
  have hset : Adds st₁ (st₁.modifyOp idx fun op => { op with inputs := ids.map some }) := by
    refine adds_modifyInputs (fun _ => rfl) fun j hj => ?_
    obtain ⟨v, -, hv⟩ := mem_map.mp (mem_of_getElem? hj)
    cases hv
  have hlinks : Links (st₁.modifyOp idx fun op => { op with inputs := ids.map some }) := by
    refine (h.adds_vars hadds hops).adds hset fun i v hv => ?_
    rcases mem_inputs_modifyOp hv with hv | ⟨rfl, hv⟩
    · exact ((h.adds_vars hadds hops).used i v hv).adds hset
    · obtain ⟨w, hw, heq⟩ := mem_map.mp hv
      rw [← Option.some.inj heq]
      exact (hused w hw).adds hset
  have hext := (hadds.trans hset).extends hlinks
  cases code.2.output with
  | none => exact ⟨trivial, hext.mono fun _ hf => hf.elim⟩
  | some out =>
    refine ⟨trivial, (hext.mono fun _ hf => hf.elim).trans (extends_define hlinks out ?_ ?_)⟩
    · rw [hext.length]
      exact hidx
    · rw [hext.output idx id]
      exact hnone

/-- Operations taken in turn from an index on, each defined where it stands. -/
theorem extends_foldl_next {β : Type} {f : Renaming × ℕ → β → Renaming × ℕ}
    (hf : ∀ st idx c, Links st → idx < st.ops.length → (opOf st idx).output = none →
      (f (st, idx) c).2 = idx + 1 ∧ Extends (· = idx) st (f (st, idx) c).1)
    (cs : List β) (st : Renaming) (idx : ℕ) (h : Links st)
    (hidx : idx + cs.length ≤ st.ops.length)
    (hnone : ∀ i, idx ≤ i → i < idx + cs.length → (opOf st i).output = none) :
    (cs.foldl f (st, idx)).2 = idx + cs.length ∧
      Extends (fun i => idx ≤ i ∧ i < idx + cs.length) st (cs.foldl f (st, idx)).1 := by
  induction cs generalizing st idx with
  | nil => exact ⟨rfl, Extends.rfl h⟩
  | cons c cs ih =>
    rw [length_cons] at hidx hnone
    obtain ⟨hnext, hext⟩ := hf st idx c h (by omega) (hnone idx (le_refl _) (by omega))
    rw [foldl_cons]
    generalize f (st, idx) c = r at hnext hext
    obtain ⟨st₁, idx₁⟩ := r
    simp only at hnext hext
    subst hnext
    obtain ⟨hlast, hrest⟩ := ih st₁ (idx + 1) hext.links (by rw [hext.length]; omega) (by
      intro i hi hlt
      rw [hext.output i (by omega)]
      exact hnone i (by omega) (by omega))
    refine ⟨?_, (hext.mono ?_).trans (hrest.mono ?_)⟩
    · rw [hlast, length_cons]
      omega
    · rintro i rfl
      rw [length_cons]
      omega
    · rintro i ⟨hi, hlt⟩
      rw [length_cons]
      omega

theorem extends_renamePhi (cfg : ControlFlowGraph) (b : ℕ) (k : Slot) (h : Links st)
    (hidx : idx < st.ops.length) (hnone : (opOf st idx).output = none) :
    (Renaming.renamePhi cfg b (st, idx) k).2 = idx + 1 ∧
      Extends (· = idx) st (Renaming.renamePhi cfg b (st, idx) k).1 := by
  have hfirst : ∃ st₁, Renaming.renamePhi cfg b (st, idx) k =
        (st₁.define (slotVarnode k) idx, idx + 1) ∧ Extends (fun _ => False) st st₁ := by
    unfold Renaming.renamePhi
    by_cases hj : entryIsJoin cfg = true ∧ b = cfg.entryBlock
    · simp only [if_pos hj]
      exact ⟨_, rfl, extends_setPhiInput h (found_incomingVar h _) idx _⟩
    · simp only [if_neg hj]
      exact ⟨st, rfl, Extends.rfl h⟩
  obtain ⟨st₁, heq, hext⟩ := hfirst
  rw [heq]
  refine ⟨rfl, (hext.mono fun _ hf => hf.elim).trans (extends_define hext.links _ ?_ ?_)⟩
  · rw [hext.length]
    exact hidx
  · rw [hext.output idx id]
    exact hnone

theorem extends_fillPhi (start j : ℕ) (st : Renaming) (phi : Slot × ℕ) (h : Links st) :
    Extends (fun _ => False) st (Renaming.fillPhi start j st phi) := by
  unfold Renaming.fillPhi
  split
  · exact extends_setPhiInput h (found_scopedVar h _) _ j
  · exact Extends.rfl h

theorem extends_fillSuccessor (b : ℕ) (st : Renaming) (s : ℕ) (h : Links st) :
    Extends (fun _ => False) st (Renaming.fillSuccessor cfg b st s) := by
  refine extends_foldl _ (fun st pred h => ?_) _ st h
  unfold Renaming.fillEdge
  split
  · exact extends_foldl _ (fun st phi h => extends_fillPhi _ _ st phi h) _ st h
  · exact Extends.rfl h

theorem extends_renameBlock (h : Links st) {b : ℕ} (hlen : blockStart cfg (b + 1) ≤ st.ops.length)
    (hnone : ∀ i, Owns cfg b i → (opOf st i).output = none) :
    Extends (Owns cfg b) st (st.renameBlock cfg b) := by
  have hsucc := blockStart_succ cfg b
  rw [length_blockOps] at hsucc
  obtain ⟨hidx, hphis⟩ := extends_foldl_next
    (fun st idx k h => extends_renamePhi cfg b k h) (phisOf cfg b) st (blockStart cfg b) h
    (by omega) fun i hi hlt => hnone i ⟨hi, by omega⟩
  unfold Renaming.renameBlock
  generalize (phisOf cfg b).foldl (Renaming.renamePhi cfg b) (st, blockStart cfg b) = r₁
    at hidx hphis ⊢
  obtain ⟨st₁, idx⟩ := r₁
  simp only at hidx hphis ⊢
  subst hidx
  obtain ⟨-, hops⟩ := extends_foldl_next (fun st idx c h hidx hnone => extends_renameOp h hidx hnone c)
    (blockCode cfg b) st₁ (blockStart cfg b + (phisOf cfg b).length) hphis.links
    (by rw [hphis.length]; omega) (by
      intro i hi hlt
      rw [hphis.output i (by omega)]
      exact hnone i ⟨by omega, by omega⟩)
  generalize (blockCode cfg b).foldl Renaming.renameOp
    (st₁, blockStart cfg b + (phisOf cfg b).length) = r₂ at hops ⊢
  obtain ⟨st₂, idx₂⟩ := r₂
  simp only at hops ⊢
  have hfill := extends_foldl (Renaming.fillSuccessor cfg b)
    (fun st s h => extends_fillSuccessor b st s h) (cfg.succs b) st₂ hops.links
  refine ((hphis.mono ?_).trans (hops.mono ?_)).trans (hfill.mono fun _ hf => hf.elim)
  · rintro i ⟨hi, hlt⟩
    exact ⟨hi, by omega⟩
  · rintro i ⟨hi, hlt⟩
    exact ⟨by omega, by omega⟩

/-- Blocks not entered yet have operations without outputs. -/
structure Linking (cfg : ControlFlowGraph) (w : TreeWalk.Walk Scoped) : Prop where
  links : Links w.state.st
  length : w.state.st.ops.length = blockStart cfg cfg.blocks.length
  waiting : TreeWalk.Inside cfg.blocks.length w
  fresh : ∀ b, b ∉ w.visited → ∀ i, Owns cfg b i → (opOf w.state.st i).output = none
  shut : ∀ i j, w.state.st.isOpen i j = true → (startState cfg).st.isOpen i j = true

theorem linking_step (w : TreeWalk.Walk Scoped) (h : Linking cfg w) :
    Linking cfg (TreeWalk.step (childrenOf cfg) (enterBlock cfg) leaveBlock w) := by
  have hinside : TreeWalk.Inside cfg.blocks.length
      (TreeWalk.step (childrenOf cfg) (enterBlock cfg) leaveBlock w) :=
    TreeWalk.inside_step (fun _ _ hc => (mem_childrenOf.mp hc).1) w h.waiting
  obtain ⟨V, stack, s⟩ := w
  match stack with
  | [] => exact h
  | (b, true) :: rest =>
    obtain ⟨hused, hscope, hincoming, hdefined, houtput, hbounded, hdistinct⟩ := h.links
    refine ⟨⟨hused, fun e he => hscope e (mem_of_mem_drop he), hincoming, hdefined, houtput,
      hbounded, hdistinct⟩, h.length, hinside, h.fresh, h.shut⟩
  | (b, false) :: rest =>
    unfold TreeWalk.step at hinside ⊢
    simp only at hinside ⊢
    split
    · next hb =>
      rw [if_pos hb] at hinside
      exact ⟨h.links, h.length, hinside, h.fresh, h.shut⟩
    · next hb =>
      rw [if_neg hb] at hinside
      have hlt : b < cfg.blocks.length := h.waiting (b, false) mem_cons_self
      have hlen : blockStart cfg (b + 1) ≤ s.st.ops.length := by
        rw [h.length]
        exact blockStart_mono cfg hlt
      have hext := extends_renameBlock h.links hlen (h.fresh b hb)
      refine ⟨hext.links, hext.length.trans h.length, hinside, fun c hc i hi => ?_,
        fun i j hij => h.shut i j (hext.shut i j hij)⟩
      rw [mem_cons, not_or] at hc
      refine (hext.output i fun hbi => hc.1 (hi.unique hbi)).trans ?_
      exact h.fresh c hc.2 i hi

theorem defOp_start (v : ℕ) : (varOf (startState cfg).st v).defOp = none :=
  congrArg SsaVarnode.defOp (varOf_of_le (Nat.zero_le v))

theorem links_start : Links (startState cfg).st := by
  constructor
  · exact fun i v hv => absurd hv ((opOf_start i).2 v)
  · exact fun e he => absurd he not_mem_nil
  · intro k id hk
    cases hk
  · intro v d hd
    rw [defOp_start] at hd
    cases hd
  · exact fun d v hv => absurd ((opOf_start d).1.symm.trans hv) (Option.some_ne_none v).symm
  · intro v d hd
    rw [defOp_start] at hd
    cases hd
  · intro v w d e hd
    rw [defOp_start] at hd
    cases hd

theorem linking_start : Linking cfg ⟨[], [], startState cfg⟩ := by
  refine ⟨links_start, length_layout cfg _, fun e he => absurd he not_mem_nil,
    fun b _ i _ => (opOf_start i).1, fun _ _ h => h⟩

theorem linking_renameAll (hentry : cfg.blocks ≠ [] → cfg.entryBlock < cfg.blocks.length) :
    Linking cfg (renameAll cfg) := by
  have hroots : ∀ r ∈ renameRoots cfg, r < cfg.blocks.length := by
    intro r hr
    rcases mem_renameRoots.mp hr with ⟨hne, rfl⟩ | ⟨hlt, -, -⟩
    · exact hentry hne
    · exact hlt
  exact (TreeWalk.walkRoots_spec (fun _ _ hc => (mem_childrenOf.mp hc).1) (le_refl _)
    (renameRoots cfg) hroots linking_step (fun w r hr _ h => ⟨h.links, h.length, fun e he => by
      rw [mem_singleton.mp he]
      exact hroots r hr, h.fresh, h.shut⟩)
    ⟨[], [], startState cfg⟩ rfl linking_start fun b hb => absurd hb not_mem_nil).1

theorem extends_closePhi (idx : ℕ) (k : Slot) (st : Renaming) (j : ℕ) (h : Links st) :
    Extends (fun _ => False) st (closePhi idx k st j) := by
  unfold closePhi
  split
  · exact extends_setPhiInput h (found_incomingVar h _) idx j
  · exact Extends.rfl h

theorem extends_closePhis (idx : ℕ) (k : Slot) (js : List ℕ) (st : Renaming) (h : Links st) :
    Extends (fun _ => False) st (js.foldl (closePhi idx k) st) :=
  extends_foldl _ (extends_closePhi idx k) js st h

theorem extends_closeBlock (cfg : ControlFlowGraph) (st : Renaming) (b : ℕ) (h : Links st) :
    Extends (fun _ => False) st (Renaming.closeBlock cfg st b) :=
  extends_foldl _ (fun st _ h => extends_closePhis _ _ _ st h) _ st h

theorem isOpen_eq_false {i j : ℕ} (hij : st.isOpen i j = false) (h : Extends (fun _ => False) st st') :
    st'.isOpen i j = false :=
  Bool.eq_false_iff.mpr fun hopen => absurd (hij.symm.trans (h.shut i j hopen)) (by decide)

theorem shut_foldl {α : Type} (f : Renaming → α → Renaming)
    (hf : ∀ st a, Links st → Extends (fun _ => False) st (f st a)) {i j : ℕ} {a : α}
    (hshut : ∀ st, Links st → (f st a).isOpen i j = false) (l : List α) (ha : a ∈ l)
    (st : Renaming) (h : Links st) : (l.foldl f st).isOpen i j = false := by
  induction l generalizing st with
  | nil => exact absurd ha not_mem_nil
  | cons x l ih =>
    rw [foldl_cons]
    have hx := hf st x h
    by_cases hax : a ∈ l
    · exact ih hax (f st x) hx.links
    · obtain rfl := (mem_cons.mp ha).resolve_right hax
      exact isOpen_eq_false (hshut st h) (extends_foldl f hf l _ hx.links)

theorem isOpen_closePhi (idx : ℕ) (k : Slot) (st : Renaming) (j : ℕ) (h : Links st) :
    (closePhi idx k st j).isOpen idx j = false := by
  unfold closePhi
  split
  · next hopen =>
    have hr := found_incomingVar h (slotVarnode k)
    generalize st.incomingVar (slotVarnode k) = r at hr
    have hj : (opOf st idx).inputs[j]? = some none := of_decide_eq_true hopen
    have hidx : idx < (r.1.addUse r.2 idx).ops.length := by
      by_contra hge
      have hlen : ¬ idx < st.ops.length := by
        rw [← hr.ops]
        exact hge
      rw [show opOf st idx = default from getD_eq_default _ _ (by omega)] at hj
      cases hj
    refine Bool.eq_false_iff.mpr fun hshut => ?_
    have hnone : (opOf (r.1.setPhiInput idx j r.2) idx).inputs[j]? = some none :=
      of_decide_eq_true hshut
    unfold Renaming.setPhiInput at hnone
    rw [opOf_modifyOp _ hidx, if_pos rfl, getElem?_set_self'] at hnone
    cases hold : (opOf (r.1.addUse r.2 idx) idx).inputs[j]? with
    | none =>
      rw [hold] at hnone
      cases hnone
    | some _ =>
      rw [hold] at hnone
      cases hnone
  · next hopen => exact Bool.eq_false_iff.mpr hopen

theorem isOpen_closeAll (h : Links st) {b pi j : ℕ} (hb : b < cfg.blocks.length)
    (hpi : pi < (phisOf cfg b).length) (hj : j < phiWidth cfg b) :
    (closeAll cfg st).isOpen (blockStart cfg b + pi) j = false := by
  refine shut_foldl (a := b) _ (extends_closeBlock cfg) (fun st h => ?_) _ (mem_range.mpr hb)
    st h
  refine shut_foldl (a := ((phisOf cfg b)[pi], pi)) _ (fun st _ h => extends_closePhis _ _ _ st h)
    (fun st h => ?_) _ ?_ st h
  · exact shut_foldl (a := j) _ (extends_closePhi _ _) (fun st h => isOpen_closePhi _ _ st j h) _
      (mem_range.mpr hj) st h
  · exact mem_zipIdx_iff_getElem?.mpr (getElem?_eq_getElem hpi)

theorem exists_owns {n i : ℕ} (h : i < blockStart cfg n) : ∃ b < n, Owns cfg b i := by
  induction n with
  | zero => exact absurd h (Nat.not_lt_zero _)
  | succ n ih =>
    by_cases hi : i < blockStart cfg n
    · obtain ⟨b, hb, howns⟩ := ih hi
      exact ⟨b, by omega, howns⟩
    · exact ⟨n, Nat.lt_succ_self n, Nat.le_of_not_lt hi, h⟩

theorem phi_of_isOpen_start {i j : ℕ} (h : (startState cfg).st.isOpen i j = true) :
    ∃ b < cfg.blocks.length, ∃ pi < (phisOf cfg b).length, i = blockStart cfg b + pi ∧
      j < phiWidth cfg b := by
  have hj : (opOf (startState cfg).st i).inputs[j]? = some none := of_decide_eq_true h
  have hi : i < blockStart cfg cfg.blocks.length := by
    by_contra hge
    have hdefault : opOf (startState cfg).st i = default := by
      refine getD_eq_default _ _ ?_
      rw [show (startState cfg).st.ops.length = _ from length_layout cfg _]
      exact Nat.le_of_not_lt hge
    rw [hdefault] at hj
    cases hj
  obtain ⟨b, hb, hlo, hhi⟩ := exists_owns hi
  obtain ⟨x, rfl⟩ := Nat.exists_eq_add_of_le hlo
  rw [blockStart_succ] at hhi
  have hx : x < (blockOps cfg b).length := by omega
  by_cases hpi : x < (phisOf cfg b).length
  · rw [op_start_phi hb hpi] at hj
    have hlt := (List.getElem?_eq_some_iff.mp hj).1
    rw [length_replicate] at hlt
    exact ⟨b, hb, x, hpi, rfl, hlt⟩
  · -- an operation of the code has no operands yet
    rw [op_start hb hx] at hj
    have hcode : (blockOps cfg b)[x].inputs = [] := by
      refine (congrArg BuildOp.inputs (getElem_append_right ?_)).trans ?_
      · rw [length_map]
        exact Nat.le_of_not_lt hpi
      · rw [getElem_map]
    rw [hcode] at hj
    cases hj

theorem links_renamed (hentry : cfg.blocks ≠ [] → cfg.entryBlock < cfg.blocks.length) :
    Links (renamed cfg) ∧ ∀ i j, (renamed cfg).isOpen i j = false := by
  have hwalk := linking_renameAll hentry
  have hclose := extends_foldl _ (extends_closeBlock cfg) (range cfg.blocks.length) _
    hwalk.links
  refine ⟨hclose.links, fun i j => Bool.eq_false_iff.mpr fun hopen => ?_⟩
  obtain ⟨b, hb, pi, hpi, rfl, hj⟩ :=
    phi_of_isOpen_start (hwalk.shut i j (hclose.shut i j hopen))
  exact absurd (hopen.symm.trans (isOpen_closeAll hwalk.links hb hpi hj)) (by decide)

end SsaLinks
