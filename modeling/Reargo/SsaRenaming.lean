import Reargo.SsaBuild

/-!
# What the renaming does to a block

Values are only added, an operation is written when its block is renamed, and a phi
operand is set once. From this each block reads the names in scope: those of the
operations before it in the block, then those at the end of its parent.
-/
namespace SsaRenaming

open PcodeModel ControlFlow SsaModel SsaBuild List Function
open Renaming (fillEdge isOpen renameInput)

def varOf (st : Renaming) (v : ℕ) : SsaVarnode := st.varnodes.getD v default
def opOf (st : Renaming) (i : ℕ) : BuildOp := st.ops.getD i default

/-- All of an operation stays but its open operands. -/
structure OpGrows (o o' : BuildOp) : Prop where
  output : o'.output = o.output
  length : o'.inputs.length = o.inputs.length
  inputs : ∀ (j id : ℕ), o.inputs[j]? = some (some id) → o'.inputs[j]? = some (some id)

/-- Values stay, and so do the operations outside `T`. -/
structure Grows (T : ℕ → Prop) (st st' : Renaming) : Prop where
  vars : ∀ v, v < st.varnodes.length → v < st'.varnodes.length ∧
    (varOf st' v).data = (varOf st v).data ∧ (varOf st' v).version = (varOf st v).version ∧
      (varOf st' v).defOp = (varOf st v).defOp
  incoming : ∀ k id, st.incoming k = some id → st'.incoming k = some id
  length : st'.ops.length = st.ops.length
  ops : ∀ i, ¬ T i → OpGrows (opOf st i) (opOf st' i)

theorem OpGrows.rfl {o : BuildOp} : OpGrows o o := ⟨Eq.refl _, Eq.refl _, fun _ _ h => h⟩

theorem OpGrows.trans {o o' o'' : BuildOp} (h : OpGrows o o') (k : OpGrows o' o'') :
    OpGrows o o'' :=
  ⟨k.output.trans h.output, k.length.trans h.length, fun j id hj => k.inputs j id (h.inputs j id hj)⟩

section Growth

variable {T U : ℕ → Prop} {st st' st'' : Renaming}

theorem Grows.rfl : Grows T st st :=
  ⟨fun _ hv => ⟨hv, Eq.refl _, Eq.refl _, Eq.refl _⟩, fun _ _ h => h, Eq.refl _,
    fun _ _ => OpGrows.rfl⟩

theorem Grows.trans (h : Grows T st st') (k : Grows T st' st'') : Grows T st st'' := by
  refine ⟨fun v hv => ?_, fun x id hx => k.incoming x id (h.incoming x id hx),
    k.length.trans h.length, fun i hi => (h.ops i hi).trans (k.ops i hi)⟩
  obtain ⟨hlt, hdata, hver, hdef⟩ := h.vars v hv
  obtain ⟨hlt', hdata', hver', hdef'⟩ := k.vars v hlt
  exact ⟨hlt', hdata'.trans hdata, hver'.trans hver, hdef'.trans hdef⟩

theorem Grows.mono (hTU : ∀ i, T i → U i) (h : Grows T st st') : Grows U st st' :=
  ⟨h.vars, h.incoming, h.length, fun i hi => h.ops i fun ht => hi (hTU i ht)⟩

end Growth

/-- Names in scope and values on entry are values of their slot; what an operation writes
knows it, and a value on entry has no definition. -/
structure Valid (st : Renaming) : Prop where
  scope : ∀ e ∈ st.entries, e.2 < st.varnodes.length ∧ slotOf (varOf st e.2).data = e.1
  incoming : ∀ k id, st.incoming k = some id → id < st.varnodes.length ∧
    slotOf (varOf st id).data = k ∧ (varOf st id).defOp = none
  output : ∀ i v, (opOf st i).output = some v → v < st.varnodes.length ∧ (varOf st v).defOp = some i

/-- The name of a slot under the entries `E`: the newest version, or the value on entry. -/
def Named (st : Renaming) (E : List (Slot × ℕ)) (k : Slot) (id : ℕ) : Prop :=
  E.lookup k = some id ∨ (E.lookup k = none ∧ st.incoming k = some id)

variable {k : Slot} {id : ℕ}

theorem Named.grow {T : ℕ → Prop} {st st' : Renaming} {E : List (Slot × ℕ)}
    (hg : Grows T st st') (h : Named st E k id) : Named st' E k id := by
  rcases h with h | ⟨h, hi⟩
  · exact .inl h
  · exact .inr ⟨h, hg.incoming k id hi⟩

theorem mem_of_lookup {E : List (Slot × ℕ)} (h : E.lookup k = some id) : (k, id) ∈ E := by
  induction E with
  | nil => cases h
  | cons e E ih =>
    rw [lookup_cons] at h
    split at h
    · next heq =>
      rw [beq_iff_eq] at heq
      obtain rfl := Option.some.inj h
      rw [heq]
      exact mem_cons_self
    · exact mem_cons_of_mem _ (ih h)

variable {idx : ℕ}

section Steps

variable {st : Renaming} {vs : List SsaVarnode}

theorem varOf_append_lt {w : SsaVarnode} {v : ℕ} (hv : v < vs.length) :
    (vs ++ [w]).getD v default = vs.getD v default := by
  rw [getD_append _ _ _ _ hv]

theorem varOf_append_new {w : SsaVarnode} : (vs ++ [w]).getD vs.length default = w := by
  rw [getD_append_right _ _ _ _ (le_refl _), Nat.sub_self]
  rfl

/-- Adding a value. -/
theorem grows_pushVar (st : Renaming) (T : ℕ → Prop) (data : VarnodeData) (version : ℕ) :
    Grows T st (st.pushVar data version).1 := by
  refine ⟨fun v hv => ?_, fun _ _ h => h, rfl, fun _ _ => OpGrows.rfl⟩
  have hsame : varOf (st.pushVar data version).1 v = varOf st v := varOf_append_lt hv
  refine ⟨?_, by rw [hsame], by rw [hsame], by rw [hsame]⟩
  simp only [Renaming.pushVar, length_append, length_singleton]
  omega

theorem valid_pushVar (h : Valid st) (data : VarnodeData) (version : ℕ) :
    Valid (st.pushVar data version).1 := by
  have hg := grows_pushVar st (fun _ => False) data version
  constructor
  · intro e he
    obtain ⟨hlt, hslot⟩ := h.scope e he
    obtain ⟨hlt', hdata, -, -⟩ := hg.vars e.2 hlt
    exact ⟨hlt', by rw [hdata]; exact hslot⟩
  · intro k id hk
    obtain ⟨hlt, hslot, hdef⟩ := h.incoming k id hk
    obtain ⟨hlt', hdata, -, hdef'⟩ := hg.vars id hlt
    exact ⟨hlt', by rw [hdata]; exact hslot, hdef'.trans hdef⟩
  · intro i v hv
    obtain ⟨hlt, hdef⟩ := h.output i v hv
    obtain ⟨hlt', -, -, hdef'⟩ := hg.vars v hlt
    exact ⟨hlt', hdef'.trans hdef⟩

/-- What a lookup of a name may do. -/
structure Looked (st st' : Renaming) : Prop where
  grows : Grows (fun _ => False) st st'
  valid : Valid st'
  ops : st'.ops = st.ops
  entries : st'.entries = st.entries

theorem looked_incomingVar (h : Valid st) (vn : VarnodeData) : Looked st (st.incomingVar vn).1 ∧
      (st.incomingVar vn).1.incoming (slotOf vn) = some (st.incomingVar vn).2 := by
  unfold Renaming.incomingVar
  cases hin : st.incoming (slotOf vn) with
  | some id => exact ⟨⟨Grows.rfl, h, rfl, rfl⟩, hin⟩
  | none =>
    have hpush := valid_pushVar h vn (st.versions (slotOf vn))
    have hgrow := grows_pushVar st (fun _ => False) vn (st.versions (slotOf vn))
    refine ⟨⟨⟨hgrow.vars, ?_, rfl, fun _ _ => OpGrows.rfl⟩, ⟨hpush.scope, ?_, hpush.output⟩,
      rfl, rfl⟩, update_self _ _ _⟩
    · intro k id hk
      have hne : k ≠ slotOf vn := by
        rintro rfl
        rw [hin] at hk
        cases hk
      exact (update_of_ne hne _ _).trans hk
    · intro k id hk
      have hupdate : update st.incoming (slotOf vn) (some st.varnodes.length) k =
          some id := hk
      by_cases hkv : k = slotOf vn
      · subst hkv
        rw [update_self] at hupdate
        obtain rfl := Option.some.inj hupdate
        have hnew : varOf (st.pushVar vn (st.versions (slotOf vn))).1 st.varnodes.length =
            ⟨vn, st.versions (slotOf vn), none, []⟩ := varOf_append_new
        refine ⟨?_, congrArg (fun w => slotOf w.data) hnew, congrArg SsaVarnode.defOp hnew⟩
        simp [Renaming.pushVar]
      · rw [update_of_ne hkv] at hupdate
        exact hpush.incoming k id hupdate

theorem looked_scopedVar (h : Valid st) (vn : VarnodeData) : Looked st (st.scopedVar vn).1 ∧
      Named (st.scopedVar vn).1 st.entries (slotOf vn) (st.scopedVar vn).2 := by
  unfold Renaming.scopedVar
  cases hin : st.entries.lookup (slotOf vn) with
  | some id => exact ⟨⟨Grows.rfl, h, rfl, rfl⟩, .inl hin⟩
  | none =>
    obtain ⟨hlook, hid⟩ := looked_incomingVar h vn
    exact ⟨hlook, .inr ⟨hin, hid⟩⟩

theorem varOf_modify {v x : ℕ} {f : SsaVarnode → SsaVarnode} : (vs.modify v f).getD x default =
      if v = x ∧ x < vs.length then f (vs.getD x default) else vs.getD x default := by
  rw [getD_eq_getElem?_getD, getElem?_modify, getD_eq_getElem?_getD]
  by_cases hx : x < vs.length
  · rw [getElem?_eq_getElem hx]
    by_cases hv : v = x <;> simp [hv, hx]
  · rw [getElem?_eq_none (by omega)]
    simp [hx]

theorem varOf_addUse (st : Renaming) (v idx x : ℕ) :
    varOf (st.addUse v idx) x = if v = x ∧ x < st.varnodes.length then
      { varOf st x with uses := (varOf st x).uses ++ [idx] } else varOf st x := varOf_modify

/-- Recording a reader changes no value. -/
theorem grows_addUse (st : Renaming) (T : ℕ → Prop) (v idx : ℕ) : Grows T st (st.addUse v idx) := by
  refine ⟨fun x hx => ?_, fun _ _ h => h, rfl, fun _ _ => OpGrows.rfl⟩
  refine ⟨by simpa [Renaming.addUse] using hx, ?_⟩
  rw [varOf_addUse]
  split <;> exact ⟨rfl, rfl, rfl⟩

theorem Valid.grow_vars {st st' : Renaming} (h : Valid st) {T : ℕ → Prop} (hg : Grows T st st')
    (hentries : st'.entries = st.entries) (hincoming : st'.incoming = st.incoming)
    (hops : ∀ i, (opOf st' i).output = (opOf st i).output) : Valid st' := by
  constructor
  · intro e he
    rw [hentries] at he
    obtain ⟨hlt, hslot⟩ := h.scope e he
    obtain ⟨hlt', hdata, -, -⟩ := hg.vars e.2 hlt
    exact ⟨hlt', by rw [hdata]; exact hslot⟩
  · intro k id hk
    rw [hincoming] at hk
    obtain ⟨hlt, hslot, hdef⟩ := h.incoming k id hk
    obtain ⟨hlt', hdata, -, hdef'⟩ := hg.vars id hlt
    exact ⟨hlt', by rw [hdata]; exact hslot, hdef'.trans hdef⟩
  · intro i v hv
    rw [hops i] at hv
    obtain ⟨hlt, hdef⟩ := h.output i v hv
    obtain ⟨hlt', -, -, hdef'⟩ := hg.vars v hlt
    exact ⟨hlt', hdef'.trans hdef⟩

theorem looked_addUse (h : Valid st) (v idx : ℕ) : Looked st (st.addUse v idx) :=
  ⟨grows_addUse st _ v idx, h.grow_vars (grows_addUse st (fun _ => False) v idx) rfl rfl fun _ => rfl,
    rfl, rfl⟩

theorem Looked.trans {st st' st'' : Renaming} (h : Looked st st') (k : Looked st' st'') :
    Looked st st'' :=
  ⟨h.grows.trans k.grows, k.valid, k.ops.trans h.ops, k.entries.trans h.entries⟩

theorem opOf_modifyOp (st : Renaming) (hidx : idx < st.ops.length) (f : BuildOp → BuildOp) (i : ℕ) :
    opOf (st.modifyOp idx f) i = if i = idx then f (opOf st i) else opOf st i := by
  unfold opOf Renaming.modifyOp
  rw [getD_eq_getElem?_getD, getElem?_modify, getD_eq_getElem?_getD]
  by_cases hi : idx = i
  · subst hi
    rw [getElem?_eq_getElem hidx]
    simp
  · simp [hi, Ne.symm hi]

/-- A definition adds one value, and leaves the others. -/
theorem length_define (st : Renaming) (vn : VarnodeData) (idx : ℕ) :
    (st.define vn idx).varnodes.length = st.varnodes.length + 1 ∧
      (st.define vn idx).ops.length = st.ops.length := by
  simp [Renaming.define, Renaming.newVersionVar, Renaming.pushVar, Renaming.setDef,
    Renaming.modifyOp]

theorem varOf_define_of_lt (vn : VarnodeData) (idx : ℕ) {v : ℕ} (hv : v < st.varnodes.length) :
    varOf (st.define vn idx) v = varOf st v := by
  refine (varOf_modify).trans ?_
  rw [if_neg fun hc => ne_of_gt hv hc.1]
  exact varOf_append_lt hv

theorem varOf_define_new (st : Renaming) (vn : VarnodeData) (idx : ℕ) :
    varOf (st.define vn idx) st.varnodes.length =
      ⟨vn, st.versions (slotOf vn) + 1, some idx, []⟩ := by
  refine (varOf_modify).trans ?_
  rw [if_pos ⟨rfl, by simp⟩]
  exact congrArg (fun w : SsaVarnode => { w with defOp := some idx }) varOf_append_new

theorem define_spec (h : Valid st) (vn : VarnodeData) (hidx : idx < st.ops.length) :
    Grows (· = idx) st (st.define vn idx) ∧ Valid (st.define vn idx) ∧
      (∀ i, i ≠ idx → opOf (st.define vn idx) i = opOf st i) ∧
      ∃ v, (st.define vn idx).entries = (slotOf vn, v) :: st.entries ∧
        (opOf (st.define vn idx) idx).output = some v ∧
        (opOf (st.define vn idx) idx).inputs = (opOf st idx).inputs ∧
        v < (st.define vn idx).varnodes.length ∧ (varOf (st.define vn idx) v).data = vn := by
  obtain ⟨hlen, hops⟩ := length_define st vn idx
  have hold := fun v => @varOf_define_of_lt st vn idx v
  have hnew := varOf_define_new st vn idx
  have hop : ∀ i, opOf (st.define vn idx) i = if i = idx then
      { opOf st i with output := some st.varnodes.length } else opOf st i :=
    fun i => opOf_modifyOp _ hidx _ i
  have hself := hop idx
  rw [if_pos rfl] at hself
  have hg : Grows (· = idx) st (st.define vn idx) := by
    refine ⟨fun v hv => ⟨by omega, ?_⟩, fun _ _ hk => hk, hops, fun i hi => ?_⟩
    · rw [hold v hv]
      exact ⟨rfl, rfl, rfl⟩
    · rw [hop i, if_neg hi]
      exact OpGrows.rfl
  refine ⟨hg, ⟨?_, ?_, ?_⟩, fun i hi => (hop i).trans (if_neg hi), st.varnodes.length, rfl, ?_, ?_,
    by omega, ?_⟩
  · intro e he
    rcases mem_cons.mp he with rfl | he
    · refine ⟨by simp only; omega, ?_⟩
      simp only [hnew]
    · obtain ⟨hlt, hslot⟩ := h.scope e he
      exact ⟨by omega, by rw [hold _ hlt]; exact hslot⟩
  · intro k id hk
    obtain ⟨hlt, hslot, hdef⟩ := h.incoming k id hk
    rw [hold _ hlt]
    exact ⟨by omega, hslot, hdef⟩
  · intro i v hv
    rw [hop i] at hv
    split at hv
    · next hi =>
      have heq : st.varnodes.length = v := Option.some.inj hv
      subst heq
      rw [hnew, hi]
      exact ⟨by omega, rfl⟩
    · obtain ⟨hlt, hdef⟩ := h.output i v hv
      rw [hold _ hlt]
      exact ⟨by omega, hdef⟩
  · rw [hself]
  · rw [hself]
  · rw [hnew]

theorem setPhiInput_spec (h : Valid st) {j : ℕ} (hopen : st.isOpen idx j = true) (v : ℕ) :
    Grows (fun _ => False) st (st.setPhiInput idx j v) ∧ Valid (st.setPhiInput idx j v) ∧
      (st.setPhiInput idx j v).entries = st.entries ∧
      (opOf (st.setPhiInput idx j v) idx).inputs[j]? = some (some v) ∧
      ∀ i x, (i ≠ idx ∨ x ≠ j) →
        (opOf (st.setPhiInput idx j v) i).inputs[x]? = (opOf st i).inputs[x]? := by
  have hj : (opOf st idx).inputs[j]? = some none := of_decide_eq_true hopen
  have hidx : idx < st.ops.length := by
    by_contra hge
    have hdefault : opOf st idx = default := getD_eq_default _ _ (by omega)
    rw [hdefault] at hj
    cases hj
  have hop : ∀ i, opOf (st.setPhiInput idx j v) i = if i = idx then
      { opOf st i with inputs := (opOf st i).inputs.set j (some v) } else opOf st i :=
    fun i => opOf_modifyOp (st.addUse v idx) hidx _ i
  have huse := grows_addUse st (fun _ => False) v idx
  have hg : Grows (fun _ => False) st (st.setPhiInput idx j v) := by
    refine ⟨huse.vars, huse.incoming, ?_, fun i _ => ?_⟩
    · simp [Renaming.setPhiInput, Renaming.modifyOp, Renaming.addUse]
    · rw [hop i]
      split
      · next hi =>
        subst hi
        refine ⟨rfl, by simp, fun x id hx => ?_⟩
        have hne : j ≠ x := by
          rintro rfl
          rw [hj] at hx
          cases hx
        rw [getElem?_set_ne hne]
        exact hx
      · exact OpGrows.rfl
  refine ⟨hg, h.grow_vars hg rfl rfl fun i => (hg.ops i id).output, rfl, ?_, ?_⟩
  · have hlt : j < (opOf st idx).inputs.length := (List.getElem?_eq_some_iff.mp hj).1
    rw [hop idx, if_pos rfl]
    simp [hlt]
  · intro i x hne
    rw [hop i]
    split
    · next hi =>
      have hx : j ≠ x := (hne.resolve_left fun hc => hc hi).symm
      exact getElem?_set_ne hx
    · rfl

end Steps

/-- The value read for an input: a constant of its own, or the name of its slot. -/
def Reads (st : Renaming) (E : List (Slot × ℕ)) (inp : VarnodeData) (id : ℕ) : Prop :=
  id < st.varnodes.length ∧ (inp.space = .const → (varOf st id).data = inp) ∧
    (inp.space ≠ .const → Named st E (slotOf inp) id)

structure OpDone (st : Renaming) (E : List (Slot × ℕ)) (idx : ℕ) (op : PcodeOp)
    (E' : List (Slot × ℕ)) : Prop where
  inputs : ∃ ids, (opOf st idx).inputs = ids.map some ∧ List.Forall₂ (Reads st E) op.inputs ids
  output : (op.output = none ∧ (opOf st idx).output = none ∧ E' = E) ∨
    ∃ vn v, op.output = some vn ∧ (opOf st idx).output = some v ∧ v < st.varnodes.length ∧
      (varOf st v).data = vn ∧ E' = (slotOf vn, v) :: E

inductive Scan (st : Renaming) :
    List (Slot × ℕ) → ℕ → List (U64 × PcodeOp) → List (Slot × ℕ) → Prop where
  | nil (E idx) : Scan st E idx [] E
  | cons {E E' E'' idx a op code} : OpDone st E idx op E' → Scan st E' (idx + 1) code E'' →
      Scan st E idx ((a, op) :: code) E''

def PhiDone (st : Renaming) (E : List (Slot × ℕ)) (idx : ℕ) (k : Slot) (E' : List (Slot × ℕ)) :
    Prop :=
  ∃ v, (opOf st idx).output = some v ∧ v < st.varnodes.length ∧
    (varOf st v).data = slotVarnode k ∧ E' = (k, v) :: E

inductive ScanPhis (st : Renaming) :
    List (Slot × ℕ) → ℕ → List Slot → List (Slot × ℕ) → Prop where
  | nil (E idx) : ScanPhis st E idx [] E
  | cons {E E' E'' idx k ks} : PhiDone st E idx k E' → ScanPhis st E' (idx + 1) ks E'' →
      ScanPhis st E idx (k :: ks) E''

section Frame

variable {T : ℕ → Prop} {st st' : Renaming} {E E' : List (Slot × ℕ)}

theorem Reads.grow {inp : VarnodeData} (hg : Grows T st st') (h : Reads st E inp id) :
    Reads st' E inp id := by
  obtain ⟨hlt, hconst, hname⟩ := h
  obtain ⟨hlt', hdata, -, -⟩ := hg.vars id hlt
  exact ⟨hlt', fun hc => hdata.trans (hconst hc), fun hc => (hname hc).grow hg⟩

theorem OpGrows.inputs_some {o o' : BuildOp} {ids : List ℕ} (h : OpGrows o o')
    (hids : o.inputs = ids.map some) : o'.inputs = ids.map some := by
  refine ext_getElem? fun j => ?_
  by_cases hj : j < ids.length
  · have hold : o.inputs[j]? = some (some ids[j]) := by
      rw [hids]
      simp [hj]
    rw [h.inputs j _ hold]
    simp [hj]
  · have hlen := h.length
    rw [hids, length_map] at hlen
    rw [getElem?_eq_none (by omega), getElem?_eq_none (by simpa using hj)]

theorem OpDone.grow {op : PcodeOp} (hg : Grows T st st') (hidx : ¬ T idx)
    (h : OpDone st E idx op E') : OpDone st' E idx op E' := by
  have hop := hg.ops idx hidx
  constructor
  · obtain ⟨ids, hids, hreads⟩ := h.inputs
    exact ⟨ids, hop.inputs_some hids, hreads.imp fun _ _ hr => hr.grow hg⟩
  · rcases h.output with ⟨hnone, hout, hE⟩ | ⟨vn, v, hvn, hout, hlt, hdata, hE⟩
    · exact .inl ⟨hnone, hop.output.trans hout, hE⟩
    · obtain ⟨hlt', hdata', -, -⟩ := hg.vars v hlt
      exact .inr ⟨vn, v, hvn, hop.output.trans hout, hlt', hdata'.trans hdata, hE⟩

theorem Scan.grow {code : List (U64 × PcodeOp)} (hg : Grows T st st')
    (hT : ∀ i, idx ≤ i → i < idx + code.length → ¬ T i) (h : Scan st E idx code E') :
    Scan st' E idx code E' := by
  induction h with
  | nil => exact .nil _ _
  | cons hop _ ih =>
    refine .cons (hop.grow hg (hT _ (le_refl _) ?_)) (ih fun i hi hlt => hT i (by omega) ?_)
    · rw [length_cons]
      omega
    · rw [length_cons]
      omega

theorem ScanPhis.grow {ks : List Slot} (hg : Grows T st st')
    (hT : ∀ i, idx ≤ i → i < idx + ks.length → ¬ T i) (h : ScanPhis st E idx ks E') :
    ScanPhis st' E idx ks E' := by
  induction h with
  | nil => exact .nil _ _
  | @cons E E' E'' idx k ks hphi _ ih =>
    refine .cons ?_ (ih fun i hi hlt => hT i (by omega) ?_)
    · obtain ⟨v, hout, hlt, hdata, hE⟩ := hphi
      obtain ⟨hlt', hdata', -, -⟩ := hg.vars v hlt
      refine ⟨v, (hg.ops idx (hT idx (le_refl _) ?_)).output.trans hout, hlt', hdata'.trans hdata,
        hE⟩
      rw [length_cons]
      omega
    · rw [length_cons]
      omega

end Frame

section Block

variable {st : Renaming}

theorem foldl_renameInput_spec (h : Valid st) (idx : ℕ) (inputs : List VarnodeData) (ids : List ℕ) :
    ∃ news, (inputs.foldl (renameInput idx) (st, ids)).2 = ids ++ news ∧
      Looked st (inputs.foldl (renameInput idx) (st, ids)).1 ∧
      List.Forall₂ (Reads (inputs.foldl (renameInput idx) (st, ids)).1 st.entries)
        inputs news := by
  induction inputs generalizing st ids with
  | nil => exact ⟨[], by simp, ⟨Grows.rfl, h, rfl, rfl⟩, .nil⟩
  | cons inp inputs ih =>
    -- one input: the value it names, then the new reader
    have hone : ∃ id, (renameInput idx (st, ids) inp).2 = ids ++ [id] ∧
        Looked st (renameInput idx (st, ids) inp).1 ∧
        Reads (renameInput idx (st, ids) inp).1 st.entries inp id := by
      unfold renameInput
      by_cases hc : inp.space = .const
      · simp only [if_pos hc]
        have hv := valid_pushVar h inp 0
        have hpush : Looked st (st.pushVar inp 0).1 :=
          ⟨grows_pushVar st _ inp 0, hv, rfl, rfl⟩
        have huse := looked_addUse hv st.varnodes.length idx
        refine ⟨_, rfl, hpush.trans huse, ?_, fun _ => ?_, fun hn => absurd hc hn⟩
        · simp [Renaming.constVar, Renaming.pushVar, Renaming.addUse]
        · have hlt : st.varnodes.length < (st.pushVar inp 0).1.varnodes.length := by
            simp [Renaming.pushVar]
          have hdata := (huse.grows.vars _ hlt).2.1
          refine hdata.trans ?_
          exact congrArg SsaVarnode.data varOf_append_new
      · simp only [if_neg hc]
        obtain ⟨hlook, hname⟩ := looked_scopedVar h inp
        have huse := looked_addUse hlook.valid (st.scopedVar inp).2 idx
        refine ⟨_, rfl, hlook.trans huse, ?_, fun hn => absurd hn hc, fun _ =>
          hname.grow huse.grows⟩
        have hlt : (st.scopedVar inp).2 < (st.scopedVar inp).1.varnodes.length := by
          rcases hname with hl | ⟨-, hi⟩
          · rw [← hlook.entries] at hl
            exact (hlook.valid.scope _ (mem_of_lookup hl)).1
          · exact (hlook.valid.incoming _ _ hi).1
        exact (huse.grows.vars _ hlt).1
    obtain ⟨id, hid, hlook, hread⟩ := hone
    rw [foldl_cons]
    obtain ⟨news, hnews, hlook', hreads⟩ := ih hlook.valid (renameInput idx (st, ids) inp).2
    rw [hlook.entries] at hreads
    refine ⟨id :: news, ?_, hlook.trans hlook', .cons (hread.grow hlook'.grows) hreads⟩
    rw [hnews, hid, append_assoc]
    rfl

theorem renameOp_spec (h : Valid st) (hidx : idx < st.ops.length)
    (hnone : (opOf st idx).output = none) (code : U64 × PcodeOp) :
    (Renaming.renameOp (st, idx) code).2 = idx + 1 ∧ Valid (Renaming.renameOp (st, idx) code).1 ∧
      Grows (· = idx) st (Renaming.renameOp (st, idx) code).1 ∧
      (∀ i, i ≠ idx → opOf (Renaming.renameOp (st, idx) code).1 i = opOf st i) ∧
      OpDone (Renaming.renameOp (st, idx) code).1 st.entries idx code.2
        (Renaming.renameOp (st, idx) code).1.entries := by
  obtain ⟨ids, hids, hlook, hreads⟩ := foldl_renameInput_spec h idx code.2.inputs []
  rw [nil_append] at hids
  unfold Renaming.renameOp
  simp only [hids]
  generalize (code.2.inputs.foldl (renameInput idx) (st, [])).1 = st₁ at hlook hreads ⊢
  have hidx₁ : idx < st₁.ops.length := by
    rw [hlook.ops]
    exact hidx
  have hop : ∀ i, opOf (st₁.modifyOp idx fun op => { op with inputs := ids.map some }) i =
      if i = idx then { opOf st₁ i with inputs := ids.map some } else opOf st₁ i :=
    fun i => opOf_modifyOp st₁ hidx₁ _ i
  have hself := hop idx
  rw [if_pos rfl] at hself
  have hsame : opOf st₁ idx = opOf st idx := by
    unfold opOf
    rw [hlook.ops]
  have hother : ∀ i, i ≠ idx →
      opOf (st₁.modifyOp idx fun op => { op with inputs := ids.map some }) i = opOf st i := by
    intro i hi
    rw [hop i, if_neg hi]
    unfold opOf
    rw [hlook.ops]
  have hg₂ : Grows (· = idx) st₁ (st₁.modifyOp idx fun op => { op with inputs := ids.map some }) := by
    refine ⟨fun v hv => ⟨hv, rfl, rfl, rfl⟩, fun _ _ hk => hk, by simp [Renaming.modifyOp],
      fun i hi => ?_⟩
    rw [hop i, if_neg hi]
    exact OpGrows.rfl
  have hv₂ : Valid (st₁.modifyOp idx fun op => { op with inputs := ids.map some }) := by
    refine hlook.valid.grow_vars hg₂ rfl rfl fun i => ?_
    rw [hop i]
    split <;> rfl
  have hg : Grows (· = idx) st (st₁.modifyOp idx fun op => { op with inputs := ids.map some }) :=
    (hlook.grows.mono fun _ hf => hf.elim).trans hg₂
  generalize hst₂ : (st₁.modifyOp idx fun op => { op with inputs := ids.map some }) = st₂
    at hg₂ hv₂ hg hself hother ⊢
  have hentries : st₂.entries = st.entries := by
    rw [← hst₂]
    exact hlook.entries
  cases hout : code.2.output with
  | none =>
    refine ⟨trivial, hv₂, hg, hother, ⟨ids, ?_, ?_⟩, .inl ⟨hout, ?_, hentries⟩⟩
    · rw [hself]
    · exact hreads.imp fun _ _ hr => hr.grow hg₂
    · rw [hself]
      exact (congrArg BuildOp.output hsame).trans hnone
  | some out =>
    have hidx₂ : idx < st₂.ops.length := by
      rw [hg.length]
      exact hidx
    obtain ⟨hg₃, hv₃, hother₃, v, hE, houtput, hinputs, hlt, hdata⟩ := define_spec hv₂ out hidx₂
    refine ⟨trivial, hv₃, hg.trans hg₃, fun i hi => (hother₃ i hi).trans (hother i hi),
      ⟨ids, ?_, ?_⟩, .inr ⟨out, v, hout, houtput, hlt, hdata, ?_⟩⟩
    · rw [hinputs, hself]
    · exact hreads.imp fun _ _ hr => (hr.grow hg₂).grow hg₃
    · rw [hE, hentries]

/-- Operations outside `T` only grow, and operands outside `S` stay. -/
structure Effect (T : ℕ → Prop) (S : ℕ → ℕ → Prop) (st st' : Renaming) : Prop where
  grows : Grows T st st'
  valid : Valid st'
  filled : ∀ i x, ¬ S i x → (opOf st' i).inputs[x]? = (opOf st i).inputs[x]?

section Effects

variable {T U : ℕ → Prop} {S R : ℕ → ℕ → Prop} {st st' st'' : Renaming}

theorem Effect.trans (h : Effect T S st st') (k : Effect T S st' st'') : Effect T S st st'' :=
  ⟨h.grows.trans k.grows, k.valid, fun i x hS => (k.filled i x hS).trans (h.filled i x hS)⟩

theorem Effect.mono (hT : ∀ i, T i → U i) (hS : ∀ i x, S i x → R i x) (h : Effect T S st st') :
    Effect U R st st' :=
  ⟨h.grows.mono hT, h.valid, fun i x hR => h.filled i x fun hs => hR (hS i x hs)⟩

theorem Looked.effect (h : Looked st st') : Effect (fun _ => False) (fun _ _ => False) st st' := by
  refine ⟨h.grows, h.valid, fun i x _ => ?_⟩
  unfold opOf
  rw [h.ops]

end Effects

theorem foldl_renameOp_spec (code : List (U64 × PcodeOp)) (st : Renaming) (idx : ℕ)
    (h : Valid st) (hidx : idx + code.length ≤ st.ops.length)
    (hnone : ∀ i, idx ≤ i → i < idx + code.length → (opOf st i).output = none) :
    Effect (fun i => idx ≤ i ∧ i < idx + code.length)
        (fun i _ => idx ≤ i ∧ i < idx + code.length) st
        (code.foldl Renaming.renameOp (st, idx)).1 ∧
      Scan (code.foldl Renaming.renameOp (st, idx)).1 st.entries idx code
        (code.foldl Renaming.renameOp (st, idx)).1.entries := by
  induction code generalizing st idx with
  | nil => exact ⟨⟨Grows.rfl, h, fun _ _ _ => rfl⟩, .nil _ _⟩
  | cons c code ih =>
    rw [length_cons] at hidx hnone
    obtain ⟨hnext, hv, hg, hother, hdone⟩ :=
      renameOp_spec h (by omega) (hnone idx (le_refl _) (by omega)) c
    rw [foldl_cons]
    generalize Renaming.renameOp (st, idx) c = r at hnext hv hg hother hdone
    obtain ⟨st₁, idx₁⟩ := r
    simp only at hnext hv hg hother hdone
    subst hnext
    obtain ⟨heffect, hscan⟩ := ih st₁ (idx + 1) hv (by rw [hg.length]; omega) (by
      intro i hi hlt
      rw [hother i (by omega)]
      exact hnone i (by omega) (by omega))
    have hfirst : Effect (fun i => idx ≤ i ∧ i < idx + (c :: code).length)
        (fun i _ => idx ≤ i ∧ i < idx + (c :: code).length) st st₁ := by
      rw [length_cons]
      refine ⟨hg.mono (by rintro i rfl; omega), hv, fun i x hi => ?_⟩
      rw [hother i]
      rintro rfl
      omega
    refine ⟨hfirst.trans (heffect.mono ?_ ?_), .cons (hdone.grow heffect.grows (by omega)) hscan⟩
    · rintro i ⟨hi, hlt⟩
      rw [length_cons]
      omega
    · rintro i _ ⟨hi, hlt⟩
      rw [length_cons]
      omega

theorem slotOf_slotVarnode (k : Slot) : slotOf (slotVarnode k) = k := rfl

/-- The block's phis take the value on entry too. -/
def JoinsEntry (cfg : ControlFlowGraph) (b : ℕ) : Prop :=
  entryIsJoin cfg = true ∧ b = cfg.entryBlock

theorem renamePhi_spec (cfg : ControlFlowGraph) (b : ℕ) (k : Slot) (h : Valid st)
    (hidx : idx < st.ops.length)
    (hopen : JoinsEntry cfg b → st.isOpen idx (phiWidth cfg b - 1) = true) :
    (Renaming.renamePhi cfg b (st, idx) k).2 = idx + 1 ∧
      Effect (· = idx) (fun i x => JoinsEntry cfg b ∧ i = idx ∧ x = phiWidth cfg b - 1) st
        (Renaming.renamePhi cfg b (st, idx) k).1 ∧
      PhiDone (Renaming.renamePhi cfg b (st, idx) k).1 st.entries idx k
        (Renaming.renamePhi cfg b (st, idx) k).1.entries ∧
      (JoinsEntry cfg b → ∃ id,
        (opOf (Renaming.renamePhi cfg b (st, idx) k).1 idx).inputs[phiWidth cfg b - 1]? =
            some (some id) ∧
          (Renaming.renamePhi cfg b (st, idx) k).1.incoming k = some id) := by
  -- the value on entry first, then the output
  have hfirst : ∃ st₁, Renaming.renamePhi cfg b (st, idx) k =
        (st₁.define (slotVarnode k) idx, idx + 1) ∧
      Effect (fun _ => False) (fun i x => JoinsEntry cfg b ∧ i = idx ∧ x = phiWidth cfg b - 1)
        st st₁ ∧ st₁.entries = st.entries ∧
      (JoinsEntry cfg b → ∃ id, (opOf st₁ idx).inputs[phiWidth cfg b - 1]? = some (some id) ∧
        st₁.incoming k = some id) := by
    unfold Renaming.renamePhi
    by_cases hj : entryIsJoin cfg = true ∧ b = cfg.entryBlock
    · simp only [if_pos hj]
      obtain ⟨hlook, hin⟩ := looked_incomingVar h (slotVarnode k)
      have hopen₁ : (st.incomingVar (slotVarnode k)).1.isOpen idx (phiWidth cfg b - 1) = true := by
        have hsame := hopen hj
        unfold isOpen at hsame ⊢
        rw [hlook.ops]
        exact hsame
      obtain ⟨hg, hv, hE, hset, hkeep⟩ :=
        setPhiInput_spec hlook.valid hopen₁ (st.incomingVar (slotVarnode k)).2
      refine ⟨_, rfl, ⟨hlook.grows.trans hg, hv, fun i x hS => ?_⟩, hE.trans hlook.entries,
        fun _ => ⟨_, hset, hg.incoming _ _ hin⟩⟩
      rw [hkeep i x (by tauto)]
      exact hlook.effect.filled i x id
    · simp only [if_neg hj]
      exact ⟨st, rfl, ⟨Grows.rfl, h, fun _ _ _ => rfl⟩, rfl, fun hc => absurd hc hj⟩
  obtain ⟨st₁, heq, heffect, hE, hjoin⟩ := hfirst
  rw [heq]
  have hidx₁ : idx < st₁.ops.length := by
    rw [heffect.grows.length]
    exact hidx
  obtain ⟨hg, hv, hother, v, hE', hout, hinputs, hlt, hdata⟩ :=
    define_spec heffect.valid (slotVarnode k) hidx₁
  refine ⟨rfl, ⟨(heffect.grows.mono fun _ hf => hf.elim).trans hg, hv, fun i x hS => ?_⟩,
    ⟨v, hout, hlt, hdata, ?_⟩, fun hj => ?_⟩
  · rw [← heffect.filled i x hS]
    by_cases hi : i = idx
    · rw [hi, hinputs]
    · rw [hother i hi]
  · rw [hE', hE]
    rfl
  · obtain ⟨id, hid, hin⟩ := hjoin hj
    exact ⟨id, by rw [hinputs]; exact hid, hg.incoming k id hin⟩

theorem foldl_renamePhi_spec (cfg : ControlFlowGraph) (b : ℕ) (ks : List Slot) (st : Renaming)
    (idx : ℕ) (h : Valid st) (hidx : idx + ks.length ≤ st.ops.length)
    (hopen : JoinsEntry cfg b → ∀ i, idx ≤ i → i < idx + ks.length →
      st.isOpen i (phiWidth cfg b - 1) = true) :
    (ks.foldl (Renaming.renamePhi cfg b) (st, idx)).2 = idx + ks.length ∧
      Effect (fun i => idx ≤ i ∧ i < idx + ks.length)
        (fun i x => JoinsEntry cfg b ∧ (idx ≤ i ∧ i < idx + ks.length) ∧ x = phiWidth cfg b - 1) st
        (ks.foldl (Renaming.renamePhi cfg b) (st, idx)).1 ∧
      ScanPhis (ks.foldl (Renaming.renamePhi cfg b) (st, idx)).1 st.entries idx ks
        (ks.foldl (Renaming.renamePhi cfg b) (st, idx)).1.entries ∧
      (JoinsEntry cfg b → ∀ (pi : ℕ) (k : Slot), ks[pi]? = some k → ∃ id,
        (opOf (ks.foldl (Renaming.renamePhi cfg b) (st, idx)).1 (idx + pi)).inputs[
            phiWidth cfg b - 1]? = some (some id) ∧
          (ks.foldl (Renaming.renamePhi cfg b) (st, idx)).1.incoming k = some id) := by
  induction ks generalizing st idx with
  | nil => exact ⟨rfl, ⟨Grows.rfl, h, fun _ _ _ => rfl⟩, .nil _ _, fun _ pi k hk => by cases hk⟩
  | cons k ks ih =>
    rw [length_cons] at hidx hopen
    obtain ⟨hnext, heffect, hdone, hjoin⟩ := renamePhi_spec cfg b k h (show idx < st.ops.length by omega)
      fun hj => hopen hj idx (le_refl _) (by omega)
    rw [foldl_cons]
    generalize Renaming.renamePhi cfg b (st, idx) k = r at hnext heffect hdone hjoin
    obtain ⟨st₁, idx₁⟩ := r
    simp only at hnext heffect hdone hjoin
    subst hnext
    obtain ⟨hlast, heffect', hscan, hjoin'⟩ := ih st₁ (idx + 1) heffect.valid
      (by rw [heffect.grows.length]; omega) (by
        intro hj i hi hlt
        have hsame := heffect.filled i (phiWidth cfg b - 1) (by rintro ⟨-, rfl, -⟩; omega)
        have hbefore := of_decide_eq_true (hopen hj i (by omega) (by omega))
        exact decide_eq_true (hsame.trans hbefore))
    refine ⟨?_, (heffect.mono ?_ ?_).trans (heffect'.mono ?_ ?_), ?_, ?_⟩
    · rw [hlast, length_cons]
      omega
    · rintro i rfl
      rw [length_cons]
      omega
    · rintro i x ⟨hj, rfl, hx⟩
      rw [length_cons]
      exact ⟨hj, by omega, hx⟩
    · rintro i ⟨hi, hlt⟩
      rw [length_cons]
      omega
    · rintro i x ⟨hj, ⟨hi, hlt⟩, hx⟩
      rw [length_cons]
      exact ⟨hj, by omega, hx⟩
    · refine .cons ?_ hscan
      obtain ⟨v, hout, hlt, hdata, hE⟩ := hdone
      obtain ⟨hlt', hdata', -, -⟩ := heffect'.grows.vars v hlt
      exact ⟨v, (heffect'.grows.ops idx (by omega)).output.trans hout, hlt', hdata'.trans hdata, hE⟩
    · intro hj pi k' hk'
      cases pi with
      | zero =>
        obtain rfl := Option.some.inj hk'
        obtain ⟨id, hid, hin⟩ := hjoin hj
        exact ⟨id, (heffect'.grows.ops idx (by omega)).inputs _ id hid,
          heffect'.grows.incoming _ _ hin⟩
      | succ pi =>
        obtain ⟨id, hid, hin⟩ := hjoin' hj pi k' hk'
        refine ⟨id, ?_, hin⟩
        rw [show idx + (pi + 1) = idx + 1 + pi by omega]
        exact hid

end Block

section Layout

variable (cfg : ControlFlowGraph)

theorem blockStart_succ (b : ℕ) :
    blockStart cfg (b + 1) = blockStart cfg b + (blockOps cfg b).length := by
  unfold blockStart
  rw [range_succ, map_append, sum_append]
  simp

theorem length_blockOps (b : ℕ) :
    (blockOps cfg b).length = (phisOf cfg b).length + (blockCode cfg b).length := by
  unfold blockOps
  simp

theorem blockStart_mono {b c : ℕ} (h : b ≤ c) : blockStart cfg b ≤ blockStart cfg c := by
  induction h with
  | refl => exact le_refl _
  | step _ ih =>
    refine ih.trans ?_
    rw [Nat.succ_eq_add_one, blockStart_succ]
    omega

def Owns (b i : ℕ) : Prop := blockStart cfg b ≤ i ∧ i < blockStart cfg (b + 1)

variable {cfg}

theorem Owns.unique {b c i : ℕ} (hb : Owns cfg b i) (hc : Owns cfg c i) : b = c := by
  by_contra hne
  obtain ⟨hb₁, hb₂⟩ := hb
  obtain ⟨hc₁, hc₂⟩ := hc
  rcases Nat.lt_or_gt_of_ne hne with hlt | hlt
  · have hle := blockStart_mono cfg (show b + 1 ≤ c from hlt)
    omega
  · have hle := blockStart_mono cfg (show c + 1 ≤ b from hlt)
    omega

theorem owns_phi {b pi : ℕ} (h : pi < (phisOf cfg b).length) : Owns cfg b (blockStart cfg b + pi) := by
  refine ⟨Nat.le_add_right _ _, ?_⟩
  rw [blockStart_succ, length_blockOps]
  omega

theorem phi_unique {b c pi pj : ℕ} (hb : pi < (phisOf cfg b).length)
    (hc : pj < (phisOf cfg c).length) (h : blockStart cfg b + pi = blockStart cfg c + pj) :
    b = c ∧ pi = pj := by
  have hbc : b = c := (owns_phi hb).unique (h ▸ owns_phi hc)
  subst hbc
  exact ⟨rfl, by omega⟩

theorem length_layout (cfg : ControlFlowGraph) (n : ℕ) :
    ((List.range n).flatMap (blockOps cfg)).length = blockStart cfg n := by
  rw [length_flatMap]
  rfl

theorem getElem?_layout {n b i : ℕ} (hb : b < n) (hi : i < (blockOps cfg b).length) :
    ((List.range n).flatMap (blockOps cfg))[blockStart cfg b + i]? = (blockOps cfg b)[i]? := by
  induction n with
  | zero => omega
  | succ n ih =>
    rw [range_succ, flatMap_append]
    by_cases hbn : b = n
    · subst hbn
      rw [getElem?_append_right (by rw [length_layout]; omega), length_layout,
        Nat.add_sub_cancel_left]
      simp
    · have hle := blockStart_mono cfg (show b + 1 ≤ n by omega)
      rw [blockStart_succ] at hle
      rw [getElem?_append_left (by rw [length_layout]; omega)]
      exact ih (by omega)

end Layout

def OpenOrNamed (st : Renaming) (E : List (Slot × ℕ)) (i j : ℕ) (k : Slot) : Prop :=
  st.isOpen i j = true ∨ ∃ id, (opOf st i).inputs[j]? = some (some id) ∧ Named st E k id

def InputNamed (st : Renaming) (E : List (Slot × ℕ)) (i j : ℕ) (k : Slot) : Prop :=
  ∃ id, (opOf st i).inputs[j]? = some (some id) ∧ Named st E k id

theorem InputNamed.grow {st st' : Renaming} {E : List (Slot × ℕ)} {i j : ℕ}
    (hg : Grows (fun _ => False) st st') (h : InputNamed st E i j k) : InputNamed st' E i j k := by
  obtain ⟨id, hid, hname⟩ := h
  exact ⟨id, (hg.ops i fun hf => hf.elim).inputs j id hid, hname.grow hg⟩

structure Fills (cfg : ControlFlowGraph) (E : List (Slot × ℕ)) (S : ℕ → ℕ → Prop)
    (st st' : Renaming) : Prop where
  effect : Effect (fun _ => False) S st st'
  entries : st'.entries = st.entries
  keeps : ∀ s pi k j, (phisOf cfg s)[pi]? = some k →
    OpenOrNamed st E (blockStart cfg s + pi) j k → OpenOrNamed st' E (blockStart cfg s + pi) j k

section Fill

variable {cfg : ControlFlowGraph} {E : List (Slot × ℕ)} {S R : ℕ → ℕ → Prop}
  {st st' st'' : Renaming}

theorem Fills.rfl (h : Valid st) : Fills cfg E S st st :=
  ⟨⟨Grows.rfl, h, fun _ _ _ => Eq.refl _⟩, Eq.refl _, fun _ _ _ _ _ ho => ho⟩

theorem Fills.trans (h : Fills cfg E S st st') (k : Fills cfg E S st' st'') :
    Fills cfg E S st st'' :=
  ⟨h.effect.trans k.effect, k.entries.trans h.entries,
    fun s pi x j hx ho => k.keeps s pi x j hx (h.keeps s pi x j hx ho)⟩

theorem Fills.mono (hS : ∀ i x, S i x → R i x) (h : Fills cfg E S st st') : Fills cfg E R st st' :=
  ⟨h.effect.mono (fun _ hf => hf) hS, h.entries, h.keeps⟩

theorem isOpen_of_looked (h : Looked st st') (i j : ℕ) : st'.isOpen i j = st.isOpen i j := by
  unfold isOpen
  rw [h.ops]

theorem fillPhi_spec (h : Valid st) (hE : st.entries = E) {s pi : ℕ} (j : ℕ)
    (hk : (phisOf cfg s)[pi]? = some k) :
    Fills cfg E (fun i x => i = blockStart cfg s + pi ∧ x = j) st
        (Renaming.fillPhi (blockStart cfg s) j st (k, pi)) ∧
      (OpenOrNamed st E (blockStart cfg s + pi) j k →
        InputNamed (Renaming.fillPhi (blockStart cfg s) j st (k, pi)) E
          (blockStart cfg s + pi) j k) := by
  unfold Renaming.fillPhi
  by_cases hopen : st.isOpen (blockStart cfg s + pi) j = true
  · simp only [if_pos hopen]
    obtain ⟨hlook, hname⟩ := looked_scopedVar h (slotVarnode k)
    have hopen' := (isOpen_of_looked hlook (blockStart cfg s + pi) j).trans hopen
    obtain ⟨hg, hv, hentries, hset, hkeep⟩ :=
      setPhiInput_spec hlook.valid hopen' (st.scopedVar (slotVarnode k)).2
    rw [hE] at hname
    have hnamed : InputNamed _ E (blockStart cfg s + pi) j k := ⟨_, hset, hname.grow hg⟩
    refine ⟨⟨⟨hlook.grows.trans hg, hv, ?_⟩, hentries.trans hlook.entries, ?_⟩, fun _ => hnamed⟩
    · intro i x hS
      rw [hkeep i x (by tauto)]
      exact hlook.effect.filled i x id
    · intro s' pi' k' j' hk' ho
      by_cases hsame : blockStart cfg s' + pi' = blockStart cfg s + pi ∧ j' = j
      · obtain ⟨hpos, rfl⟩ := hsame
        have hpi := (List.getElem?_eq_some_iff.mp hk).1
        have hpi' := (List.getElem?_eq_some_iff.mp hk').1
        obtain ⟨rfl, rfl⟩ := phi_unique hpi' hpi hpos
        obtain rfl := Option.some.inj (hk.symm.trans hk')
        exact .inr hnamed
      · rcases ho with ho | hn
        · left
          have hsame' := hkeep (blockStart cfg s' + pi') j' (by tauto)
          have hbefore := of_decide_eq_true ((isOpen_of_looked hlook _ _).trans ho)
          exact decide_eq_true (hsame'.trans hbefore)
        · exact .inr (InputNamed.grow (hlook.grows.trans hg) hn)
  · simp only [if_neg hopen]
    exact ⟨Fills.rfl h, fun ho => ho.resolve_left hopen⟩

theorem foldl_fillPhi_spec {s : ℕ} (j : ℕ) (phis : List (Slot × ℕ)) (st : Renaming)
    (hphis : ∀ e ∈ phis, (phisOf cfg s)[e.2]? = some e.1) (h : Valid st) (hE : st.entries = E) :
    Fills cfg E (fun i x => Owns cfg s i ∧ x = j) st
        (phis.foldl (Renaming.fillPhi (blockStart cfg s) j) st) ∧
      ∀ e ∈ phis, OpenOrNamed st E (blockStart cfg s + e.2) j e.1 →
        InputNamed (phis.foldl (Renaming.fillPhi (blockStart cfg s) j) st) E
          (blockStart cfg s + e.2) j e.1 := by
  induction phis generalizing st with
  | nil => exact ⟨Fills.rfl h, fun e he => absurd he not_mem_nil⟩
  | cons e phis ih =>
    have he := hphis e mem_cons_self
    obtain ⟨hfill, hnamed⟩ := fillPhi_spec h hE j he
    obtain ⟨hfills, hall⟩ := ih _ (fun x hx => hphis x (mem_cons_of_mem _ hx))
      hfill.effect.valid (hfill.entries.trans hE)
    rw [foldl_cons]
    refine ⟨(hfill.mono ?_).trans hfills, ?_⟩
    · rintro i x ⟨rfl, rfl⟩
      exact ⟨owns_phi (List.getElem?_eq_some_iff.mp he).1, rfl⟩
    · intro x hx ho
      rcases mem_cons.mp hx with rfl | hx
      · exact (hnamed ho).grow hfills.effect.grows
      · exact hall x hx (hfill.keeps s x.2 x.1 j (hphis x (mem_cons_of_mem _ hx)) ho)

theorem foldl_fillEdge_spec (b s : ℕ) (preds : List (ℕ × ℕ)) (st : Renaming)
    (hpreds : ∀ p ∈ preds, (cfg.preds s)[p.2]? = some p.1) (h : Valid st) (hE : st.entries = E) :
    Fills cfg E (fun i x => Owns cfg s i ∧ (cfg.preds s)[x]? = some b) st
        (preds.foldl (fillEdge cfg b s) st) ∧
      ∀ p ∈ preds, p.1 = b → ∀ (pi : ℕ) (k : Slot), (phisOf cfg s)[pi]? = some k →
        OpenOrNamed st E (blockStart cfg s + pi) p.2 k →
          InputNamed (preds.foldl (fillEdge cfg b s) st) E
            (blockStart cfg s + pi) p.2 k := by
  induction preds generalizing st with
  | nil => exact ⟨Fills.rfl h, fun p hp => absurd hp not_mem_nil⟩
  | cons p preds ih =>
    have hp := hpreds p mem_cons_self
    have hstep : Fills cfg E (fun i x => Owns cfg s i ∧ (cfg.preds s)[x]? = some b) st
          (fillEdge cfg b s st p) ∧
        (p.1 = b → ∀ (pi : ℕ) (k : Slot), (phisOf cfg s)[pi]? = some k →
          OpenOrNamed st E (blockStart cfg s + pi) p.2 k →
            InputNamed (fillEdge cfg b s st p) E (blockStart cfg s + pi) p.2 k) := by
      unfold fillEdge
      by_cases hb : p.1 = b
      · rw [if_pos hb]
        have hmem : ∀ e ∈ (phisOf cfg s).zipIdx, (phisOf cfg s)[e.2]? = some e.1 := fun e he =>
          mem_zipIdx_iff_getElem?.mp he
        obtain ⟨hfills, hall⟩ := foldl_fillPhi_spec p.2 _ st hmem h hE
        refine ⟨hfills.mono ?_, fun _ pi k hk ho => ?_⟩
        · rintro i x ⟨hi, rfl⟩
          exact ⟨hi, hb ▸ hp⟩
        · exact hall (k, pi) (mem_zipIdx_iff_getElem?.mpr hk) ho
      · rw [if_neg hb]
        exact ⟨Fills.rfl h, fun hc => absurd hc hb⟩
    obtain ⟨hfill, hnamed⟩ := hstep
    obtain ⟨hfills, hall⟩ := ih _ (fun x hx => hpreds x (mem_cons_of_mem _ hx))
      hfill.effect.valid (hfill.entries.trans hE)
    rw [foldl_cons]
    refine ⟨hfill.trans hfills, ?_⟩
    intro x hx hb pi k hk ho
    rcases mem_cons.mp hx with rfl | hx
    · exact (hnamed hb pi k hk ho).grow hfills.effect.grows
    · exact hall x hx hb pi k hk (hfill.keeps s pi k x.2 hk ho)

theorem foldl_fillSuccessor_spec (cfg : ControlFlowGraph) (b : ℕ) (succs : List ℕ)
    (st : Renaming) (h : Valid st)
    (hE : st.entries = E) :
    Fills cfg E (fun i x => ∃ s, Owns cfg s i ∧ (cfg.preds s)[x]? = some b) st
        (succs.foldl (Renaming.fillSuccessor cfg b) st) ∧
      ∀ s ∈ succs, ∀ j, (cfg.preds s)[j]? = some b → ∀ (pi : ℕ) (k : Slot),
        (phisOf cfg s)[pi]? = some k → OpenOrNamed st E (blockStart cfg s + pi) j k →
          InputNamed (succs.foldl (Renaming.fillSuccessor cfg b) st) E
            (blockStart cfg s + pi) j k := by
  induction succs generalizing st with
  | nil => exact ⟨Fills.rfl h, fun s hs => absurd hs not_mem_nil⟩
  | cons s succs ih =>
    have hmem : ∀ p ∈ (cfg.preds s).zipIdx, (cfg.preds s)[p.2]? = some p.1 := fun p hp =>
      mem_zipIdx_iff_getElem?.mp hp
    obtain ⟨hfill, hnamed⟩ := foldl_fillEdge_spec b s _ st hmem h hE
    obtain ⟨hfills, hall⟩ := ih (Renaming.fillSuccessor cfg b st s) hfill.effect.valid
      (hfill.entries.trans hE)
    rw [foldl_cons]
    refine ⟨(hfill.mono fun i x hx => ⟨s, hx⟩).trans hfills, ?_⟩
    intro x hx j hj pi k hk ho
    rcases mem_cons.mp hx with rfl | hx
    · exact (hnamed (b, j) (mem_zipIdx_iff_getElem?.mpr hj) rfl pi k hk ho).grow
        hfills.effect.grows
    · exact hall x hx j hj pi k hk (hfill.keeps x pi k j hk ho)

end Fill

end SsaRenaming
