import Reargo.SsaPaths
import Reargo.SsaLinks

/-!
# Values with and without a definition

A definition never gets the number zero, and a constant that is read has no definition. A
value on entry gets the number its slot has reached when it is first read, so its number
says nothing.
-/
namespace SsaEntryValues

open PcodeModel ControlFlow SsaModel SsaBuild SsaRenaming SsaLinks SsaScopes PhiPlacement List
open Renaming (renameInput)

variable {cfg : ControlFlowGraph} {st st' : Renaming}

/-- A value an operation may read. -/
def Readable (st : Renaming) (v : ℕ) : Prop :=
  v < st.varnodes.length ∧ ((varOf st v).data.space = .const → (varOf st v).defOp = none)

structure Entered (st : Renaming) : Prop where
  scope : ∀ e ∈ st.entries, e.2 < st.varnodes.length ∧ slotOf (varOf st e.2).data = e.1
  incoming : ∀ k id, st.incoming k = some id → id < st.varnodes.length ∧
    (varOf st id).defOp = none
  positive : ∀ v d, (varOf st v).defOp = some d → 0 < (varOf st v).version
  inputs : ∀ i v, some v ∈ (opOf st i).inputs → Readable st v

/-- Values stay, with their slots, numbers and definitions. -/
def KeepsVars (st st' : Renaming) : Prop :=
  ∀ v, v < st.varnodes.length → v < st'.varnodes.length ∧ (varOf st' v).data = (varOf st v).data ∧
    (varOf st' v).version = (varOf st v).version ∧ (varOf st' v).defOp = (varOf st v).defOp

theorem KeepsVars.readable {v : ℕ} (h : KeepsVars st st') (hv : Readable st v) : Readable st' v := by
  obtain ⟨hlt, hdata, -, hdef⟩ := h v hv.1
  exact ⟨hlt, fun hc => hdef.trans (hv.2 (hdata ▸ hc))⟩

/-- A step that adds one value at most, and changes no operation. -/
theorem Entered.step (h : Entered st) (hkeeps : KeepsVars st st')
    (hscope : ∀ e ∈ st'.entries, e ∈ st.entries ∨
      (e.2 < st'.varnodes.length ∧ slotOf (varOf st' e.2).data = e.1))
    (hincoming : ∀ k id, st'.incoming k = some id → st.incoming k = some id ∨
      (id < st'.varnodes.length ∧ (varOf st' id).defOp = none))
    (hpositive : ∀ v d, st.varnodes.length ≤ v → (varOf st' v).defOp = some d →
      0 < (varOf st' v).version)
    (hinputs : ∀ i v, some v ∈ (opOf st' i).inputs → Readable st v ∨ Readable st' v) :
    Entered st' where
  scope e he := by
    rcases hscope e he with he | he
    · obtain ⟨hlt, hslot⟩ := h.scope e he
      obtain ⟨hlt', hdata, -, -⟩ := hkeeps e.2 hlt
      exact ⟨hlt', by rw [hdata, hslot]⟩
    · exact he
  incoming k id hk := by
    rcases hincoming k id hk with hk | hk
    · obtain ⟨hlt, hdef⟩ := h.incoming k id hk
      obtain ⟨hlt', -, -, hdef'⟩ := hkeeps id hlt
      exact ⟨hlt', hdef'.trans hdef⟩
    · exact hk
  positive v d hd := by
    by_cases hold : v < st.varnodes.length
    · obtain ⟨-, -, hver, hdef⟩ := hkeeps v hold
      rw [hver]
      exact h.positive v d (hdef.symm.trans hd)
    · exact hpositive v d (not_lt.mp hold) hd
  inputs i v hv := (hinputs i v hv).elim hkeeps.readable id

theorem keepsVars_pushVar (st : Renaming) (vn : VarnodeData) (version : ℕ) :
    KeepsVars st (st.pushVar vn version).1 :=
  (grows_pushVar st (fun _ => False) vn version).vars

theorem varOf_pushVar_new (st : Renaming) (vn : VarnodeData) (version v : ℕ)
    (hv : st.varnodes.length ≤ v) (hlt : v < (st.pushVar vn version).1.varnodes.length) :
    v = st.varnodes.length ∧ varOf (st.pushVar vn version).1 v = ⟨vn, version, none, []⟩ := by
  rw [length_pushVar] at hlt
  obtain rfl : v = st.varnodes.length := by omega
  exact ⟨rfl, varOf_append_new⟩

theorem defOp_pushVar_new (st : Renaming) (vn : VarnodeData) (version v : ℕ)
    (hv : st.varnodes.length ≤ v) : (varOf (st.pushVar vn version).1 v).defOp = none := by
  by_cases hlt : v < (st.pushVar vn version).1.varnodes.length
  · rw [(varOf_pushVar_new st vn version v hv hlt).2]
  · rw [varOf_of_le (not_lt.mp hlt)]
    rfl

theorem Entered.constVar (h : Entered st) (vn : VarnodeData) :
    Entered (st.constVar vn).1 ∧ Readable (st.constVar vn).1 (st.constVar vn).2 := by
  have hnew : varOf (st.constVar vn).1 st.varnodes.length = ⟨vn, 0, none, []⟩ := varOf_append_new
  refine ⟨h.step (keepsVars_pushVar st vn 0) (fun e he => .inl he) (fun k id hk => .inl hk)
    (fun v d hv hd => ?_) (fun i v hv => .inl (h.inputs i v hv)), ?_,
    fun _ => congrArg SsaVarnode.defOp hnew⟩
  · exact absurd ((defOp_pushVar_new st vn 0 v hv).symm.trans hd) (by simp)
  · exact lt_of_lt_of_eq (Nat.lt_succ_self _) (length_pushVar st vn 0).symm

theorem Entered.incomingVar (h : Entered st) (vn : VarnodeData) :
    Entered (st.incomingVar vn).1 ∧ Readable (st.incomingVar vn).1 (st.incomingVar vn).2 ∧
      KeepsVars st (st.incomingVar vn).1 ∧ (st.incomingVar vn).1.ops = st.ops ∧
        (st.incomingVar vn).1.entries = st.entries := by
  unfold Renaming.incomingVar
  cases hin : st.incoming (slotOf vn) with
  | some id =>
    obtain ⟨hlt, hdef⟩ := h.incoming _ id hin
    exact ⟨h, ⟨hlt, fun _ => hdef⟩, fun v hv => ⟨hv, rfl, rfl, rfl⟩, rfl, rfl⟩
  | none =>
    have hkeeps := keepsVars_pushVar st vn (st.versions (slotOf vn))
    have hlen := length_pushVar st vn (st.versions (slotOf vn))
    have hdef := defOp_pushVar_new st vn (st.versions (slotOf vn)) _ le_rfl
    have hlt : st.varnodes.length < (st.pushVar vn (st.versions (slotOf vn))).1.varnodes.length :=
      lt_of_lt_of_eq (Nat.lt_succ_self _) hlen.symm
    refine ⟨h.step hkeeps (fun e he => .inl he) (fun k id hk => ?_) (fun v d hv hd => ?_)
      (fun i v hv => .inl (h.inputs i v hv)), ⟨hlt, fun _ => hdef⟩, hkeeps, rfl, rfl⟩
    · have hupdate : Function.update st.incoming (slotOf vn) (some st.varnodes.length) k =
          some id := hk
      by_cases hkv : k = slotOf vn
      · rw [hkv, Function.update_self] at hupdate
        obtain rfl := Option.some.inj hupdate
        exact .inr ⟨hlt, hdef⟩
      · rw [Function.update_of_ne hkv] at hupdate
        exact .inl hupdate
    · exact absurd ((defOp_pushVar_new st vn _ v hv).symm.trans hd) (by simp)

theorem Entered.scopedVar (h : Entered st) {vn : VarnodeData} (hvn : vn.space ≠ .const) :
    Entered (st.scopedVar vn).1 ∧ Readable (st.scopedVar vn).1 (st.scopedVar vn).2 ∧
      KeepsVars st (st.scopedVar vn).1 ∧ (st.scopedVar vn).1.ops = st.ops ∧
        (st.scopedVar vn).1.entries = st.entries := by
  unfold Renaming.scopedVar
  cases hin : st.entries.lookup (slotOf vn) with
  | some id =>
    obtain ⟨hlt, hslot⟩ := h.scope _ (mem_of_lookup hin)
    have hspace : (varOf st id).data.space = vn.space := congrArg Prod.fst hslot
    exact ⟨h, ⟨hlt, fun hc => absurd (hspace.symm.trans hc) hvn⟩,
      fun v hv => ⟨hv, rfl, rfl, rfl⟩, rfl, rfl⟩
  | none => exact h.incomingVar vn

theorem keepsVars_addUse (st : Renaming) (v idx : ℕ) : KeepsVars st (st.addUse v idx) := by
  intro x hx
  refine ⟨lt_of_lt_of_le hx (adds_addUse st v idx).size, ?_⟩
  exact (adds_addUse st v idx).vars x hx

theorem Entered.addUse (h : Entered st) (v idx : ℕ) : Entered (st.addUse v idx) := by
  have hdef : ∀ x, (varOf (st.addUse v idx) x).defOp = (varOf st x).defOp := by
    intro x
    rw [varOf_addUse]
    split <;> rfl
  refine h.step (keepsVars_addUse st v idx) (fun e he => .inl he) (fun k id hk => .inl hk)
    (fun x d hx hd => ?_)
    (fun i x hx => .inl (h.inputs i x hx))
  rw [hdef, varOf_of_le hx] at hd
  cases hd

/-- New operands of one operation. -/
theorem Entered.modifyOp (h : Entered st) (idx : ℕ) {f : BuildOp → BuildOp}
    (hf : ∀ o v, some v ∈ (f o).inputs → some v ∈ o.inputs ∨ Readable st v) :
    Entered (st.modifyOp idx f) := by
  refine ⟨h.scope, h.incoming, h.positive, fun i v hv => ?_⟩
  rcases mem_inputs_modifyOp hv with hv | ⟨-, hv⟩
  · exact h.inputs i v hv
  · exact (hf _ v hv).elim (h.inputs idx v) id

theorem readable_addUse {v : ℕ} (hv : Readable st v) (x idx : ℕ) : Readable (st.addUse x idx) v :=
  (keepsVars_addUse st x idx).readable hv

theorem Entered.setPhiInput (h : Entered st) {v : ℕ} (hv : Readable st v) (idx j : ℕ) :
    Entered (st.setPhiInput idx j v) := by
  refine (h.addUse v idx).modifyOp idx fun o x hx => ?_
  rcases mem_or_eq_of_mem_set hx with hx | hx
  · exact .inl hx
  · obtain rfl := Option.some.inj hx
    exact .inr (readable_addUse hv x idx)

/-- A definition gets a value of its own, with a number above zero. -/
theorem Entered.define (h : Entered st) (vn : VarnodeData) (idx : ℕ) :
    Entered (st.define vn idx) := by
  obtain ⟨hlen, -⟩ := length_define st vn idx
  have hold := fun v => @varOf_define_of_lt st vn idx v
  have hnew := varOf_define_new st vn idx
  have hops : ∀ i, ∀ v, some v ∈ (opOf (st.define vn idx) i).inputs → some v ∈ (opOf st i).inputs := by
    intro i v hv
    rcases @mem_inputs_modifyOp ((st.newVersionVar vn).1.setDef (st.newVersionVar vn).2 idx) _ _ _ _ hv
      with hv | ⟨rfl, hv⟩ <;> exact hv
  refine h.step (fun v hv => ⟨by omega, by rw [hold v hv], by rw [hold v hv], by rw [hold v hv]⟩)
    (fun e he => ?_) (fun k id hk => .inl hk) (fun v d hv hd => ?_)
    (fun i v hv => .inl (h.inputs i v (hops i v hv)))
  · rcases mem_cons.mp he with rfl | he
    · exact .inr ⟨lt_of_lt_of_eq (Nat.lt_succ_self _) hlen.symm,
        congrArg (fun w : SsaVarnode => slotOf w.data) hnew⟩
    · exact .inl he
  · by_cases hv' : v = st.varnodes.length
    · subst hv'
      rw [hnew]
      exact Nat.succ_pos _
    · rw [varOf_of_le (by omega)] at hd
      cases hd

theorem entered_foldl {α : Type} {f : Renaming → α → Renaming} {l : List α}
    (hf : ∀ st, ∀ a ∈ l, Entered st → Entered (f st a)) (st : Renaming) (h : Entered st) :
    Entered (l.foldl f st) := by
  induction l generalizing st with
  | nil => exact h
  | cons a l ih =>
    exact ih (fun st x hx => hf st x (mem_cons_of_mem _ hx)) _
      (hf st a mem_cons_self h)

theorem space_of_phi {b : ℕ} {k : Slot} (hk : k ∈ phisOf cfg b) : k.1 ≠ .const := by
  have hexposed : ∀ (code : List (U64 × PcodeOp)) (killed : List Slot),
      ∀ k ∈ exposedAfter killed code, k.1 ≠ .const := by
    intro code
    induction code with
    | nil => exact fun _ k hk => absurd hk not_mem_nil
    | cons c code ih =>
      intro killed k hk
      rcases mem_append.mp hk with hk | hk
      · obtain ⟨vn, hvn, rfl⟩ := mem_map.mp (mem_filter.mp hk).1
        simpa [slotOf] using (mem_filter.mp hvn).2
      · exact ih _ k hk
  have hglobal := (mem_phisOf.mp hk).1
  unfold globalSlots at hglobal
  rw [mem_insertionSort, mem_dedup, mem_flatMap] at hglobal
  obtain ⟨b, -, hb⟩ := hglobal
  exact hexposed _ _ k hb

theorem Entered.renameInputs (idx : ℕ) (inputs : List VarnodeData) (acc : Renaming × List ℕ)
    (h : Entered acc.1) (hacc : ∀ v ∈ acc.2, Readable acc.1 v) :
    Entered (inputs.foldl (renameInput idx) acc).1 ∧
      ∀ v ∈ (inputs.foldl (renameInput idx) acc).2,
        Readable (inputs.foldl (renameInput idx) acc).1 v := by
  induction inputs generalizing acc with
  | nil => exact ⟨h, hacc⟩
  | cons inp inputs ih =>
    rw [foldl_cons]
    obtain ⟨st, ids⟩ := acc
    have hfound : ∃ r : Renaming × ℕ, renameInput idx (st, ids) inp =
        (r.1.addUse r.2 idx, ids ++ [r.2]) ∧ Entered r.1 ∧ Readable r.1 r.2 ∧ KeepsVars st r.1 := by
      by_cases hc : inp.space = .const
      · obtain ⟨hent, hread⟩ := h.constVar inp
        exact ⟨st.constVar inp, by simp [renameInput, hc], hent, hread,
          keepsVars_pushVar st inp 0⟩
      · obtain ⟨hent, hread, hkeeps, -⟩ := h.scopedVar hc
        exact ⟨st.scopedVar inp, by simp [renameInput, hc], hent, hread, hkeeps⟩
    obtain ⟨r, heq, hent, hread, hkeeps⟩ := hfound
    rw [heq]
    refine ih _ (hent.addUse r.2 idx) fun v hv => ?_
    rcases mem_append.mp hv with hv | hv
    · exact readable_addUse (hkeeps.readable (hacc v hv)) r.2 idx
    · rw [mem_singleton.mp hv]
      exact readable_addUse hread r.2 idx

theorem Entered.renameOp (acc : Renaming × ℕ) (h : Entered acc.1) (code : U64 × PcodeOp) :
    Entered (Renaming.renameOp acc code).1 := by
  obtain ⟨st, idx⟩ := acc
  obtain ⟨hent, hread⟩ := Entered.renameInputs idx code.2.inputs (st, []) h
    fun v hv => absurd hv not_mem_nil
  unfold Renaming.renameOp
  simp only
  generalize code.2.inputs.foldl (renameInput idx) (st, []) = r at hent hread ⊢
  obtain ⟨st₁, ids⟩ := r
  have hmod : Entered (st₁.modifyOp idx fun op => { op with inputs := ids.map some }) := by
    refine hent.modifyOp idx fun o v hv => .inr ?_
    obtain ⟨x, hx, hxv⟩ := mem_map.mp hv
    obtain rfl := Option.some.inj hxv
    exact hread x hx
  cases code.2.output with
  | none => exact hmod
  | some out => exact hmod.define out idx

theorem Entered.renamePhi (b : ℕ) (acc : Renaming × ℕ) (h : Entered acc.1) (k : Slot) :
    Entered (Renaming.renamePhi cfg b acc k).1 := by
  obtain ⟨st, idx⟩ := acc
  unfold Renaming.renamePhi
  simp only
  split
  · obtain ⟨hent, hread, -⟩ := h.incomingVar (slotVarnode k)
    exact (hent.setPhiInput hread idx _).define _ idx
  · exact Entered.define h _ idx

theorem entered_foldl_fst {α : Type} {f : Renaming × ℕ → α → Renaming × ℕ}
    (hf : ∀ acc a, Entered acc.1 → Entered (f acc a).1) (l : List α) (acc : Renaming × ℕ)
    (h : Entered acc.1) : Entered (l.foldl f acc).1 := by
  induction l generalizing acc with
  | nil => exact h
  | cons a l ih => exact ih _ (hf acc a h)

theorem Entered.fillPhi {s : ℕ} (j : ℕ) (st : Renaming) (phi : Slot × ℕ)
    (hphi : phi.1 ∈ phisOf cfg s) (h : Entered st) :
    Entered (Renaming.fillPhi (blockStart cfg s) j st phi) := by
  unfold Renaming.fillPhi
  split
  · have hspace : (slotVarnode phi.1).space ≠ .const := space_of_phi hphi
    obtain ⟨hent, hread, -⟩ := h.scopedVar hspace
    exact hent.setPhiInput hread _ j
  · exact h

theorem Entered.fillSuccessor (b : ℕ) (st : Renaming) (s : ℕ) (h : Entered st) :
    Entered (Renaming.fillSuccessor cfg b st s) := by
  refine entered_foldl (fun st pred _ h => ?_) st h
  unfold Renaming.fillEdge
  split
  · exact entered_foldl (fun st phi hphi h => h.fillPhi _ st phi (fst_mem_of_mem_zipIdx hphi)) st h
  · exact h

theorem Entered.renameBlock (b : ℕ) (h : Entered st) : Entered (st.renameBlock cfg b) := by
  have hphis := entered_foldl_fst (fun acc k h => @Entered.renamePhi cfg b acc h k)
    (phisOf cfg b) (st, blockStart cfg b) h
  have hcode := entered_foldl_fst (fun acc c h => Entered.renameOp acc h c) (blockCode cfg b) _ hphis
  exact entered_foldl (fun st s _ h => h.fillSuccessor b st s) _ hcode

theorem Entered.closeBlock (st : Renaming) (b : ℕ) (h : Entered st) :
    Entered (Renaming.closeBlock cfg st b) := by
  refine entered_foldl (fun st phi _ h => entered_foldl (fun st j _ h => ?_) st h) st h
  unfold Renaming.closePhi
  split
  · obtain ⟨hent, hread, -⟩ := h.incomingVar (slotVarnode phi.1)
    exact hent.setPhiInput hread _ j
  · exact h

theorem entered_step (w : TreeWalk.Walk Scoped) (h : Entered w.state.st) :
    Entered (TreeWalk.step (childrenOf cfg) (enterBlock cfg) leaveBlock w).state.st := by
  obtain ⟨V, stack, s⟩ := w
  match stack with
  | [] => exact h
  | (b, true) :: rest =>
    exact ⟨fun e he => h.scope e (mem_of_mem_drop he), h.incoming, h.positive, h.inputs⟩
  | (b, false) :: rest =>
    unfold TreeWalk.step
    simp only
    split
    · exact h
    · exact h.renameBlock b

theorem entered_start : Entered (startState cfg).st := by
  refine ⟨fun e he => absurd he not_mem_nil, fun k id hk => ?_,
    fun v d hd => ?_, fun i v hv => absurd hv ((opOf_start i).2 v)⟩
  · cases hk
  · rw [defOp_start] at hd
    cases hd

theorem entered_renamed : Entered (renamed cfg) := by
  have hroots : ∀ (roots : List ℕ) (w : TreeWalk.Walk Scoped), Entered w.state.st →
      Entered (TreeWalk.walkRoots (childrenOf cfg) (enterBlock cfg) leaveBlock
        (TreeWalk.stepBound (childrenOf cfg) cfg.blocks.length) roots w).state.st := by
    intro roots
    induction roots with
    | nil => exact fun _ h => h
    | cons r roots ih =>
      intro w h
      exact ih _ (TreeWalk.run_induction (P := fun w : TreeWalk.Walk Scoped => Entered w.state.st)
        entered_step _ _ h)
  exact entered_foldl (fun st b _ h => h.closeBlock st b) _
    (hroots (renameRoots cfg) ⟨[], [], startState cfg⟩ entered_start)

end SsaEntryValues
