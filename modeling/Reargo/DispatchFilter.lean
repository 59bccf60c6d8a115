import Reargo.JumpTables

/-!
# The dispatch prefilter

Every substitution of the recovery only fills in constants: for a register, or for an
extension of what was filled in. What is accepted after any such filling had the form the
prefilter looks for, and both read nothing of the instructions outside the window.
-/
namespace DispatchFilter

open PcodeModel ControlFlow LoadedMemory JumpTables Option

inductive Filled : E → E → Prop where
  | const {e : E} (h : constant e = true) (c : U64) : Filled e (.const c)
  | reg (v : VarnodeData) : Filled (.reg v) (.reg v)
  | other : Filled .other .other
  | add {a a' b b' : E} (ha : Filled a a') (hb : Filled b b') : Filled (.add a b) (.add a' b')
  | mul {a a' : E} (c : U64) (ha : Filled a a') : Filled (.mul a c) (.mul a' c)
  | load {a a' : E} (size : ℕ) (ha : Filled a a') : Filled (.load a size) (.load a' size)
  | ext {a a' : E} (ha : Filled a a') : Filled (.ext a) (.ext a')

variable {v : VarnodeData}

namespace Filled

theorem refl (e : E) : Filled e e := by
  induction e with
  | reg v => exact .reg v
  | const c => exact .const rfl c
  | add a b iha ihb => exact .add iha ihb
  | mul a c ih => exact .mul c ih
  | load a size ih => exact .load size ih
  | ext a ih => exact .ext ih
  | other => exact .other

/-- What became a constant, or may still become one, could before. -/
theorem constant_of {e e' : E} (h : Filled e e') (hc : constant e' = true) :
    constant e = true := by
  induction h with
  | const h c => exact h
  | reg v => rfl
  | other => exact hc
  | add ha hb => exact absurd hc Bool.false_ne_true
  | mul c ha => exact absurd hc Bool.false_ne_true
  | load size ha => exact absurd hc Bool.false_ne_true
  | ext ha ih => exact ih hc

theorem trans {e e' e'' : E} (h : Filled e e') (h' : Filled e' e'') : Filled e e'' := by
  induction h' generalizing e with
  | const hc c => exact .const (h.constant_of hc) c
  | reg v => exact h
  | other => exact h
  | add _ _ iha ihb =>
    cases h with
    | add ha hb => exact .add (iha ha) (ihb hb)
  | mul c _ ih =>
    cases h with
    | mul _ ha => exact .mul c (ih ha)
  | load size _ ih =>
    cases h with
    | load _ ha => exact .load size (ih ha)
  | ext _ ih =>
    cases h with
    | ext ha => exact .ext (ih ha)

theorem elim_const (c : Option U64) : Filled (.reg v) (c.elim (.reg v) .const) := by
  cases c with
  | none => exact .reg v
  | some c => exact .const rfl c

theorem widened {a a' : E} (h : Filled a a') : Filled (.ext a) (JumpTables.widened a') := by
  cases h with
  | const hc c => exact .const (show constant (.ext a) = true from hc) c
  | reg v => exact .ext (.reg v)
  | other => exact .ext .other
  | add ha hb => exact .ext (.add ha hb)
  | mul c ha => exact .ext (.mul c ha)
  | load size ha => exact .ext (.load size ha)
  | ext ha => exact .ext (.ext ha)

end Filled

theorem withBases_filled (bases : U64 → Option U64) (e : E) : Filled e (withBases bases e) := by
  induction e with
  | reg v =>
    unfold withBases
    split
    · exact .elim_const _
    · exact .reg v
  | const c => exact .refl _
  | add a b iha ihb => exact .add iha ihb
  | mul a c ih => exact .mul c ih
  | load a size ih => exact .load size ih
  | ext a ih => exact ih.widened
  | other => exact .other

theorem looseSummand_filled (loose : U64 → Option U64) {e rest : E} (h : Filled e rest) :
    Filled e (looseSummand loose rest e) := by
  cases e with
  | reg v =>
    simp only [looseSummand]
    split
    · exact .elim_const _
    · exact h
  | const c => exact h
  | add a b => exact h
  | mul a c => exact h
  | load a size => exact h
  | ext a => exact h
  | other => exact h

theorem withLooseBases_filled (loose : U64 → Option U64) (e : E) :
    Filled e (withLooseBases loose e) := by
  induction e with
  | reg v => exact .refl _
  | const c => exact .refl _
  | add a b iha ihb =>
    exact .add (looseSummand_filled loose iha) (looseSummand_filled loose ihb)
  | mul a c ih => exact .refl _
  | load a size ih => exact .load size ih
  | ext a ih => exact .ext ih
  | other => exact .refl _

theorem substituted_filled (insns : List LiftedInstruction) (k : ℕ)
    (bases loose : U64 → Option U64) (mode : Mode) (st : ℕ) (v : VarnodeData) :
    Filled (evaluate (slice insns st k) v) (substituted insns k bases loose mode st v) := by
  have hbases := withBases_filled bases (evaluate (slice insns st k) v)
  cases mode with
  | once => exact hbases
  | loose => exact hbases.trans (withLooseBases_filled loose _)
  | nearest => exact hbases.trans (withLooseBases_filled (nearestConstant insns st) _)

theorem tableSlot_cases {addr : E} {scale : U64} (hscale : scale ≠ 1)
    (h : (tableSlot addr scale).isSome) :
    ∃ t i, addr = .add (.const t) (.mul i scale) ∨ addr = .add (.mul i scale) (.const t) := by
  unfold tableSlot at h
  split at h
  · next t i s =>
    split at h
    · next hs => exact ⟨t, i, .inl (by rw [hs])⟩
    · cases h
  · next i s t =>
    split at h
    · next hs => exact ⟨t, i, .inr (by rw [hs])⟩
    · cases h
  · cases h
  · rw [if_neg hscale] at h
    cases h
  · rw [if_neg hscale] at h
    cases h
  · cases h

theorem relativeEntry_cases {x : E} {t : U64} (h : (relativeEntry t x).isSome) :
    ∃ addr, x = .ext (.load addr 4) ∧ (tableSlot addr 4).isSome := by
  unfold relativeEntry at h
  split at h
  · next addr =>
    refine ⟨addr, rfl, ?_⟩
    by_contra hnone
    rw [not_isSome_iff_eq_none] at hnone
    rw [hnone] at h
    cases h
  · cases h

theorem dispatch_cases {e : E} (h : (dispatch e).isSome) :
    (∃ t x, (e = .add (.const t) x ∨ e = .add x (.const t)) ∧ (relativeEntry t x).isSome) ∨
      ∃ addr, e = .load addr 8 ∧ (tableSlot addr 8).isSome := by
  unfold dispatch at h
  split at h
  · next t x => exact .inl ⟨t, x, .inl rfl, h⟩
  · next x t _ => exact .inl ⟨t, x, .inr rfl, h⟩
  · next addr => exact .inr ⟨addr, rfl, by simpa using h⟩
  · cases h

theorem scaled_of_filled {m x i : E} {scale t : U64} (hm : Filled m (.mul i scale))
    (hx : Filled x (.const t)) : scaled scale m x = true := by
  have hconst := hx.constant_of rfl
  cases hm with
  | mul _ _ =>
    simp only [scaled, decide_true, Bool.true_and]
    exact hconst

theorem slot_of_filled {addr addr' : E} {scale : U64} (hscale : scale ≠ 1)
    (h : Filled addr addr') (hs : (tableSlot addr' scale).isSome) : slot scale addr = true := by
  obtain ⟨t, i, hform⟩ := tableSlot_cases hscale hs
  rcases hform with rfl | rfl
  · cases h with
    | add ha hb =>
      simp only [slot, Bool.or_eq_true]
      exact .inr (scaled_of_filled hb ha)
  · cases h with
    | add ha hb =>
      simp only [slot, Bool.or_eq_true]
      exact .inl (scaled_of_filled ha hb)

theorem entry_of_filled {x x' : E} {t : U64} (h : Filled x x')
    (he : (relativeEntry t x').isSome) : entry x = true := by
  obtain ⟨addr', rfl, hslot⟩ := relativeEntry_cases he
  cases h with
  | ext h =>
    cases h with
    | load _ h => exact slot_of_filled (by decide) h hslot

theorem mayBeDispatch_of_filled {e e' : E} (h : Filled e e') (hd : (dispatch e').isSome) :
    mayBeDispatch e = true := by
  rcases dispatch_cases hd with ⟨t, x', hform, hentry⟩ | ⟨addr', rfl, hslot⟩
  · rcases hform with rfl | rfl
    · cases h with
      | add ha hb =>
        have hconst := ha.constant_of rfl
        have hent := entry_of_filled hb hentry
        simp only [mayBeDispatch, hconst, hent, Bool.and_self, Bool.true_or]
    · cases h with
      | add ha hb =>
        have hconst := hb.constant_of rfl
        have hent := entry_of_filled ha hentry
        simp only [mayBeDispatch, hconst, hent, Bool.and_self, Bool.or_true]
  · cases h with
    | load _ h => exact slot_of_filled (by decide) h hslot

theorem windowFrom_le (insns : List LiftedInstruction) (n start : ℕ) :
    windowFrom insns n start ≤ start := by
  induction n generalizing start with
  | zero => cases start <;> exact le_refl _
  | succ n ih =>
    cases start with
    | zero => exact le_refl _
    | succ start =>
      simp only [windowFrom]
      split
      · exact le_refl _
      · exact (ih start).trans (Nat.le_succ start)

theorem windowStart_le (insns : List LiftedInstruction) (k : ℕ) : windowStart insns k ≤ k :=
  windowFrom_le insns maxWindow k

theorem length_window {insns : List LiftedInstruction} {k : ℕ} (hk : k < insns.length) :
    (window insns k).length = k + 1 - windowStart insns k := by
  simp only [window, slice, List.length_drop, List.length_take]
  omega

theorem slice_eq_drop (insns : List LiftedInstruction) (k j : ℕ) :
    slice insns (windowStart insns k + j) k = (window insns k).drop j := by
  unfold window slice
  rw [List.drop_drop]

theorem window_last {insns : List LiftedInstruction} {k : ℕ} (hk : k < insns.length) :
    (window insns k).getLast? = some (insnAt insns k) := by
  have hle := windowStart_le insns k
  have hlen := length_window hk
  rw [List.getLast?_eq_getElem?, hlen]
  unfold window slice insnAt
  rw [List.getElem?_drop, List.getElem?_take_of_lt (by omega),
    show windowStart insns k + (k + 1 - windowStart insns k - 1) = k by omega,
    List.getD_eq_getElem?_getD, List.getElem?_eq_getElem hk]
  rfl

section SameWindow

variable {insns insns' : List LiftedInstruction} {k k' : ℕ}

variable (hk : k < insns.length) (hk' : k' < insns'.length)
  (hw : window insns' k' = window insns k)

include hk hk' hw

theorem targetVarnode_congr : targetVarnode insns' k' = targetVarnode insns k := by
  have hlast := window_last hk'
  rw [hw, window_last hk, some.injEq] at hlast
  unfold targetVarnode
  rw [hlast]

theorem start_congr {st : ℕ} (hst : st ∈ starts insns' k') :
    ∃ st₀ ∈ starts insns k, slice insns' st k' = slice insns st₀ k := by
  have hlen := length_window hk'
  rw [hw, length_window hk] at hlen
  rw [starts, List.mem_range'_1] at hst
  obtain ⟨j, rfl⟩ := Nat.exists_eq_add_of_le hst.1
  refine ⟨windowStart insns k + j, ?_, ?_⟩
  · rw [starts, List.mem_range'_1]
    omega
  · rw [slice_eq_drop, slice_eq_drop, hw]

theorem mayDispatch_of_found (hv : targetVarnode insns k = some v) {bases loose : U64 → Option U64}
    {mode : Mode} {st : ℕ} (hst : st ∈ starts insns' k')
    (hd : (dispatch (substituted insns' k' bases loose mode st v)).isSome) :
    mayDispatch insns k = true := by
  obtain ⟨st₀, hst₀, hline⟩ := start_congr hk hk' hw hst
  have hfilled := substituted_filled insns' k' bases loose mode st v
  rw [hline] at hfilled
  unfold mayDispatch
  rw [hv, any_some, List.any_eq_true]
  exact ⟨st₀, hst₀, mayBeDispatch_of_filled hfilled hd⟩

end SameWindow

theorem dispatch_of_findDispatch {insns : List LiftedInstruction} {k : ℕ}
    {bases loose : U64 → Option U64} {memory : Memory} {d : Dispatch}
    (h : findDispatch insns k bases loose memory v = some d) :
    ∃ mode, ∃ st ∈ starts insns k,
      (dispatch (substituted insns k bases loose mode st v)).isSome := by
  unfold findDispatch at h
  obtain ⟨mode, -, hmode⟩ := List.exists_of_findSome?_eq_some h
  obtain ⟨st, hst, hfrom⟩ := List.exists_of_findSome?_eq_some hmode
  refine ⟨mode, st, hst, ?_⟩
  unfold dispatchFrom at hfrom
  obtain ⟨found, hfound, -⟩ := bind_eq_some_iff.mp hfrom
  exact isSome_iff_exists.mpr ⟨found, hfound⟩

/-- A jump the prefilter refuses has no table in any list with the same window, whatever the
bases, the constants, the memory and the ranges are; for every expression, what any
substitution makes a dispatch is one the prefilter keeps. -/
theorem prefilter_loses_no_table :
    (∀ (insns : List LiftedInstruction) (k : ℕ) (insns' : List LiftedInstruction) (k' : ℕ),
      k < insns.length → k' < insns'.length → window insns' k' = window insns k →
      mayDispatch insns k = false →
      ∀ (addrs : Finset U64) (bases loose : U64 → Option U64) (loaded : Finset U64)
        (memory : Memory) (range : ℕ → VarnodeData → Option Interval),
        recoverOne insns' k' addrs bases loose loaded memory range = none) ∧
    ∀ (e : E) (bases loose : U64 → Option U64),
      (dispatch (withBases bases e)).isSome ∨
        (dispatch (withLooseBases loose (withBases bases e))).isSome →
      mayBeDispatch e = true := by
  constructor
  · intro insns k insns' k' hk hk' hw hmay addrs bases loose loaded memory range
    have htarget := targetVarnode_congr hk hk' hw
    by_contra hsome
    unfold recoverOne at hsome
    obtain ⟨found, hfound⟩ := ne_none_iff_exists'.mp hsome
    obtain ⟨v, hv, hrest⟩ := bind_eq_some_iff.mp hfound
    obtain ⟨d, hd, -⟩ := bind_eq_some_iff.mp hrest
    obtain ⟨mode, st, hst, hdispatch⟩ := dispatch_of_findDispatch hd
    rw [htarget] at hv
    have hpass := mayDispatch_of_found hk hk' hw hv hst hdispatch
    rw [hmay] at hpass
    cases hpass
  · intro e bases loose h
    have hbases := withBases_filled bases e
    rcases h with hd | hd
    · exact mayBeDispatch_of_filled hbases hd
    · exact mayBeDispatch_of_filled (hbases.trans (withLooseBases_filled loose _)) hd

def rax : VarnodeData := ⟨SpaceId.register, 0, 8⟩

/-- `jmp rax` alone, and after a `call` its window does not reach over. -/
def jumpRax : LiftedInstruction := ⟨0x1005, 2, "jmp rax", [⟨.branchInd, none, [rax]⟩]⟩
def callBefore : LiftedInstruction :=
  ⟨0x1000, 5, "call 0x2000", [⟨.call, none, [⟨SpaceId.ram, 0x2000, 8⟩]⟩]⟩

theorem prefilter_loses_no_table_register :
    recoverOne [callBefore, jumpRax] 1 {0x1000, 0x1005} (fun _ => some 0x3000) (fun _ => none) ∅
        ⟨[], .little⟩ (fun _ _ => some (0, 3)) = none ∧
      mayBeDispatch (.load (.add (.reg rax) (.mul (.reg rax) 8)) 8) = true :=
  ⟨prefilter_loses_no_table.1 [jumpRax] 0 [callBefore, jumpRax] 1 (by decide) (by decide)
      (by decide) (by decide) _ _ _ _ _ _,
    prefilter_loses_no_table.2 _ (fun _ => none) (fun _ => some 0x3000) (.inr (by decide))⟩

end DispatchFilter
