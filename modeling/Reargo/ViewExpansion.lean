import Reargo.ViewMachines

/-!
# What the passes add

The marks, the count and the moves of the passes come to one thing: each op with what is
added before and after it.
-/
namespace ViewExpansion

open PcodeModel RegisterViews List
open Bool hiding and_self and_true false_or not_not or_assoc true_and

variable {high zeroUpper : Bool} {op : PcodeOp} {ops : List PcodeOp} {tmp : U64}

section Parts

def before (high : Bool) (op : PcodeOp) : List PcodeOp :=
  if high then highReads none op.inputs else []

/-- The general-register views after an op, and the next temporary. -/
def gprAfter (high : Bool) (op : PcodeOp) (tmp : U64) : List PcodeOp × U64 :=
  match op.output with
  | none => ([], tmp)
  | some w =>
    if high && highByte w then highViews w tmp
    else if gprView w then gprViews w tmp
    else ([], tmp)

def xmmAfter (zeroUpper : Bool) (op : PcodeOp) (tmp : U64) : List PcodeOp × U64 :=
  match op.output with
  | none => ([], tmp)
  | some w => if xmmView w then xmmViews zeroUpper w tmp else ([], tmp)

/-- Each op with its views; the two temporaries are those of the two kinds of register. -/
def expanded (high zeroUpper : Bool) : List PcodeOp → U64 → U64 → List PcodeOp
  | [], _, _ => []
  | op :: rest, t, u =>
    before high op ++ op :: ((xmmAfter zeroUpper op u).1 ++ ((gprAfter high op t).1 ++
      expanded high zeroUpper rest (gprAfter high op t).2 (xmmAfter zeroUpper op u).2))

/-- The general registers' part of it. -/
def expandGpr (high : Bool) : List PcodeOp → U64 → List PcodeOp
  | [], _ => []
  | op :: rest, t =>
    before high op ++ op :: ((gprAfter high op t).1 ++ expandGpr high rest (gprAfter high op t).2)

theorem looked_eq : looked high op tmp =
    (before high op ++ op :: (gprAfter high op tmp).1, (gprAfter high op tmp).2) := by
  unfold looked before gprAfter
  cases high with
  | false =>
    cases ho : op.output with
    | none => rfl
    | some w =>
      cases hg : gprView w with
      | false => simp [Option.filter, hg]
      | true => simp [Option.filter, hg]
  | true =>
    cases ho : op.output with
    | none => rfl
    | some w =>
      cases hh : highByte w with
      | false =>
        cases hg : gprView w with
        | false => simp [Option.filter, hg, hh]
        | true => simp [Option.filter, hg, hh]
      | true => simp [Option.filter, hh]

end Parts

variable {w : VarnodeData}

section Counts

/-- How many ops are added for one. -/
def added (high : Bool) (op : PcodeOp) : ℕ :=
  (if high then countHigh none op.inputs else 0) +
    match op.output with
    | none => 0
    | some w =>
      if high && highByte w then 4
      else if gprView w then
        match w.size with
        | 8 => if !(w.offset == 0x20) then 3 else 0
        | 4 => 1 + if w.offset == 0x20 then 0 else 2
        | _ => if !(w.offset == 0x20) then 4 else 0
      else 0

theorem length_highReads (last : Option VarnodeData) (ins : List VarnodeData) :
    (highReads last ins).length = countHigh last ins := by
  induction ins generalizing last with
  | nil => rfl
  | cons v ins ih =>
    simp only [highReads, countHigh]
    split
    · split
      · rw [length_cons, ih, add_comm]
      · rw [ih, zero_add]
    · exact ih last

theorem length_gprViews (w : VarnodeData) (tmp : U64) : (gprViews w tmp).1.length =
    match w.size with
    | 8 => if !(w.offset == 0x20) then 3 else 0
    | 4 => 1 + if w.offset == 0x20 then 0 else 2
    | _ => if !(w.offset == 0x20) then 4 else 0 := by
  unfold gprViews
  by_cases h8 : w.size = 8
  · simp only [h8]
    split
    · rfl
    · rfl
  · by_cases h4 : w.size = 4
    · simp only [h4]
      cases w.offset == 0x20 with
      | false => rfl
      | true => rfl
    · simp only
      split
      · rfl
      · rfl

theorem length_parts (high : Bool) (op : PcodeOp) (tmp : U64) :
    (before high op).length + (gprAfter high op tmp).1.length = added high op := by
  unfold before gprAfter added
  congr 1
  · split
    · exact length_highReads _ _
    · rfl
  · split
    · rfl
    · split
      · rfl
      · split
        · exact length_gprViews _ _
        · rfl

theorem gprViews_next_of_nil (h : (gprViews w tmp).1 = []) : (gprViews w tmp).2 = tmp := by
  unfold gprViews at h ⊢
  by_cases h8 : w.size = 8
  · simp only [h8]
  · by_cases h4 : w.size = 4
    · simp only [h4]
    · by_cases hr : w.offset = 32#64
      · simp [hr]
      · simp [hr] at h

theorem parts_of_added_zero (h : added high op = 0) (tmp : U64) :
    before high op = [] ∧ (gprAfter high op tmp).1 = [] ∧ (gprAfter high op tmp).2 = tmp := by
  have hlen := length_parts high op tmp
  rw [h] at hlen
  have hbefore : before high op = [] := length_eq_zero_iff.mp (by omega)
  have hafter : (gprAfter high op tmp).1 = [] := length_eq_zero_iff.mp (by omega)
  refine ⟨hbefore, hafter, ?_⟩
  unfold gprAfter at hafter ⊢
  split
  · rfl
  next w hw =>
    simp only [hw] at hafter
    split
    next hh =>
      rw [if_pos hh] at hafter
      cases hafter
    next hh =>
      rw [if_neg hh] at hafter
      split
      next hg =>
        rw [if_pos hg] at hafter
        exact gprViews_next_of_nil hafter
      · rfl

theorem expandGpr_append (h : ∀ op ∈ ops, added high op = 0) (rest : List PcodeOp) (tmp : U64) :
    expandGpr high (ops ++ rest) tmp = ops ++ expandGpr high rest tmp := by
  induction ops with
  | nil => rfl
  | cons op ops ih =>
    obtain ⟨hbefore, hafter, hnext⟩ :=
      parts_of_added_zero (h op mem_cons_self) tmp
    simp only [cons_append, expandGpr, hbefore, hafter, hnext, nil_append,
      ih fun op hop => h op (mem_cons_of_mem _ hop)]

theorem expandGpr_of_added_zero (h : ∀ op ∈ ops, added high op = 0) (tmp : U64) :
    expandGpr high ops tmp = ops := by
  have happend := expandGpr_append h [] tmp
  rwa [append_nil, expandGpr, append_nil] at happend

theorem length_expandGpr (tmp : U64) : (expandGpr high ops tmp).length =
    ops.length + (ops.map (added high)).sum := by
  induction ops generalizing tmp with
  | nil => rfl
  | cons op ops ih =>
    have hparts := length_parts high op tmp
    simp only [expandGpr, length_append, length_cons, ih, map_cons, sum_cons]
    omega

end Counts

section Marks

/-- The pass looks at the op. -/
def marked (high : Bool) (op : PcodeOp) : Bool :=
  (high && decide (0 < countHigh none op.inputs)) ||
    op.output.any fun w => (high && highByte w) || gprView w

theorem added_of_not_marked (h : marked high op = false) : added high op = 0 := by
  simp only [marked, or_eq_false_iff, and_eq_false_imp, decide_eq_false_iff_not,
    not_lt, Nat.le_zero] at h
  obtain ⟨hreads, hout⟩ := h
  unfold added
  have hzero : (if high then countHigh none op.inputs else 0) = 0 := by
    split
    next hh => exact hreads hh
    · rfl
  rw [hzero]
  split
  · rfl
  next w hw =>
    rw [hw, Option.any_some, or_eq_false_iff] at hout
    rw [hout.1, hout.2]
    rfl

theorem space_of_gprView (h : gprView w = true) : w.space = .register := by
  simp only [gprView, and_eq_true, beq_iff_eq] at h
  exact h.1.1.1

theorem space_of_highByte (h : highByte w = true) : w.space = .register := by
  simp only [highByte, and_eq_true, beq_iff_eq] at h
  exact h.2

theorem space_of_xmmView (h : xmmView w = true) : w.space = .register := by
  simp only [xmmView, and_eq_true, beq_iff_eq] at h
  exact h.1.1.1.1

theorem findStep_spec (high : Bool) (op : PcodeOp) (k : ℕ) (f : Found) :
    (findStep high k op f).xmm = (f.xmm || op.output.any xmmView) ∧
      (findStep high k op f).extra = f.extra + added high op ∧
      (findStep high k op f).touch =
        if marked high op then f.touch ||| 1#64 <<< min k 63 else f.touch := by
  have hreads : (0 < if high then countHigh none op.inputs else 0) ↔
      (high && decide (0 < countHigh none op.inputs)) = true := by
    cases high with
    | false => simp only [false_eq_true, if_false, Nat.lt_irrefl, Bool.false_and]
    | true => simp only [if_true, Bool.true_and, decide_eq_true_eq]
  have htwice : ∀ (r : Bool) (x bit : U64),
      (if r = true then x ||| bit else x) ||| bit = x ||| bit := by
    intro r x bit
    cases r with
    | false => rfl
    | true => rw [if_pos rfl, BitVec.or_assoc, BitVec.or_self]
  unfold findStep added marked
  simp only [hreads]
  cases ho : op.output with
  | none => exact ⟨(Bool.or_false _).symm, rfl, by rw [Option.any_none, Bool.or_false]⟩
  | some w =>
    simp only [Option.any_some]
    by_cases hs : w.space = .register
    · by_cases hh : (high && highByte w) = true
      · simp only [hs, bne_self_eq_false, false_eq_true, if_false, if_true, hh, Bool.true_or,
          Bool.or_true, htwice, Nat.add_assoc, and_self]
      · rw [not_eq_true] at hh
        by_cases hg : gprView w = true
        · simp only [hs, bne_self_eq_false, false_eq_true, if_false, if_true, hh, hg,
            Bool.or_true, htwice, true_and, and_true]
          exact Nat.add_assoc _ _ _
        · rw [not_eq_true] at hg
          simp only [hs, bne_self_eq_false, false_eq_true, if_false, hh, hg, Bool.or_false,
            Nat.add_zero, and_self]
    · have hx : xmmView w = false := eq_false_iff.mpr fun h => hs (space_of_xmmView h)
      have hg : gprView w = false := eq_false_iff.mpr fun h => hs (space_of_gprView h)
      have hh : highByte w = false := eq_false_iff.mpr fun h => hs (space_of_highByte h)
      have hne : (w.space != .register) = true := bne_iff_ne.mpr hs
      simp only [hx, hg, hh, hne, if_true, Bool.and_false, Bool.or_false, false_eq_true,
        if_false, Nat.add_zero, and_self]

theorem find_spec (high : Bool) (ops : List PcodeOp) (k : ℕ) (f : Found) :
    (find high k ops f).xmm = (f.xmm || ops.any fun op => op.output.any xmmView) ∧
      (find high k ops f).extra = f.extra + (ops.map (added high)).sum ∧
      ∀ i, (find high k ops f).touch.getLsbD i = true ↔ f.touch.getLsbD i = true ∨
        ∃ j op, ops[j]? = some op ∧ marked high op = true ∧ min (k + j) 63 = i := by
  induction ops generalizing k f with
  | nil => simp [find]
  | cons op ops ih =>
    obtain ⟨hxmm, hextra, htouch⟩ := findStep_spec high op k f
    obtain ⟨hxmm', hextra', htouch'⟩ := ih (k + 1) (findStep high k op f)
    refine ⟨?_, ?_, fun i => ?_⟩
    · rw [find, hxmm', hxmm, any_cons, Bool.or_assoc]
    · rw [find, hextra', hextra, map_cons, sum_cons, Nat.add_assoc]
    · have hbit : (1#64 <<< min k 63).getLsbD i = decide (min k 63 = i) := by
        rw [BitVec.getLsbD_shiftLeft, BitVec.getLsbD_one, Bool.eq_iff_iff]
        simp only [and_eq_true, decide_eq_true_eq, not_eq_true', decide_eq_false_iff_not]
        omega
      have hstep : (findStep high k op f).touch.getLsbD i = true ↔ f.touch.getLsbD i = true ∨
          marked high op = true ∧ min k 63 = i := by
        rw [htouch]
        split
        next hm =>
          rw [BitVec.getLsbD_or, hbit, or_eq_true, decide_eq_true_eq]
          simp only [hm, true_and]
        next hm => exact ⟨.inl, fun h => h.elim id fun h => absurd h.1 hm⟩
      rw [find, htouch', hstep, or_assoc]
      apply or_congr_right
      constructor
      · rintro (⟨hm, hi⟩ | ⟨j, op', hop, hm, hi⟩)
        · exact ⟨0, op, rfl, hm, hi⟩
        · refine ⟨j + 1, op', hop, hm, ?_⟩
          rw [← hi]
          congr 1
          omega
      · rintro ⟨j, op', hop, hm, hi⟩
        cases j with
        | zero =>
          cases hop
          exact .inl ⟨hm, hi⟩
        | succ j =>
          refine .inr ⟨j, op', hop, hm, ?_⟩
          rw [← hi]
          congr 1
          omega

end Marks

section Loop

theorem getLsbD_of_lt_trailingZeros {x : U64} {i : ℕ} (h : i < trailingZeros x) :
    x.getLsbD i = false := by
  unfold trailingZeros at h
  cases hf : (range 64).find? fun i => x.getLsbD i with
  | none =>
    rw [hf] at h
    have hnone := find?_eq_none.mp hf i (mem_range.mpr h)
    simpa using hnone
  | some j =>
    rw [hf] at h
    have hbefore := (find?_range_eq_some.mp hf).2.2 i h
    simpa using hbefore

theorem le_trailingZeros {x : U64} {i : ℕ} (hi : i ≤ 64) (h : ∀ j < i, x.getLsbD j = false) :
    i ≤ trailingZeros x := by
  unfold trailingZeros
  cases hf : (range 64).find? fun i => x.getLsbD i with
  | none => exact hi
  | some j =>
    have hbit := find?_some hf
    by_contra hlt
    rw [h j (by simpa using hlt)] at hbit
    cases hbit

theorem getLsbD_cleared (touch : U64) (i j : ℕ) :
    (touch >>> i <<< i).getLsbD j = (decide (i ≤ j) && touch.getLsbD j) := by
  rw [BitVec.getLsbD_shiftLeft, BitVec.getLsbD_ushiftRight]
  by_cases hij : i ≤ j
  · simp only [hij, decide_true, Nat.add_sub_of_le hij, Nat.not_lt.mpr hij, decide_false,
      Bool.not_false, Bool.and_true, Bool.true_and]
    by_cases hj : j < 64
    · simp only [hj, decide_true, Bool.true_and]
    · rw [BitVec.getLsbD_of_ge _ _ (Nat.not_lt.mp hj), Bool.and_false]
  · simp only [hij, decide_false, Nat.lt_of_not_le hij, decide_true, Bool.not_true, Bool.and_false,
      Bool.false_and]

theorem zeroExtendLoop_eq {touch : U64} {n fuel i : ℕ} (hn : n = i + ops.length)
    (hfuel : ops.length < fuel)
    (hmarks : ∀ j op, ops[j]? = some op → i + j < 63 → marked high op = true →
      touch.getLsbD (i + j) = true) :
    zeroExtendLoop touch high n fuel i ops tmp = expandGpr high ops tmp := by
  induction fuel generalizing i ops tmp with
  | zero => exact absurd hfuel (Nat.not_lt_zero _)
  | succ fuel ih =>
    unfold zeroExtendLoop
    by_cases hlt : i < n
    · rw [if_pos hlt]
      generalize hnext : (if 63 ≤ i then i
        else min (min (trailingZeros (touch >>> i <<< i)) 63) n) = next
      have hle : i ≤ next := by
        rw [← hnext]
        split
        · exact le_refl _
        next h63 =>
          have htz : i ≤ trailingZeros (touch >>> i <<< i) := by
            apply le_trailingZeros (by omega)
            intro j hj
            rw [getLsbD_cleared, decide_eq_false (by omega), Bool.false_and]
          omega
      have hplain : ∀ op ∈ ops.take (next - i), added high op = 0 := by
        intro op hop
        obtain ⟨j, hj, rfl⟩ := mem_take_iff_getElem.mp hop
        have hjn : i + j < next := by omega
        apply added_of_not_marked
        by_contra hm
        rw [not_eq_false] at hm
        have h63 : ¬ 63 ≤ i := by
          intro h63
          rw [if_pos h63] at hnext
          omega
        rw [if_neg h63] at hnext
        have hbit := hmarks j ops[j] (getElem?_eq_getElem (by omega)) (by omega) hm
        have hzero : (touch >>> i <<< i).getLsbD (i + j) = false :=
          getLsbD_of_lt_trailingZeros (by omega)
        rw [getLsbD_cleared, hbit, decide_eq_true (Nat.le_add_right i j)] at hzero
        cases hzero
      have hsplit := expandGpr_append hplain (ops.drop (next - i)) tmp
      rw [take_append_drop] at hsplit
      rw [hsplit]
      simp only
      cases hdrop : ops.drop (next - i) with
      | nil => exact (append_nil _).symm
      | cons op rest =>
        have hlen : ops.length = next - i + (rest.length + 1) := by
          have hlen := congrArg List.length hdrop
          rw [length_drop, length_cons] at hlen
          omega
        simp only [looked_eq, expandGpr, append_assoc, cons_append]
        rw [ih (by omega) (by omega)]
        intro j op' hop' h63 hm
        have hget : ops[next - i + (j + 1)]? = some op' := by
          rw [← getElem?_drop, hdrop]
          exact hop'
        have hbit := hmarks _ op' hget (by omega) hm
        rwa [show i + (next - i + (j + 1)) = next + 1 + j by omega] at hbit
    · rw [if_neg hlt]
      have hempty : ops = [] := length_eq_zero_iff.mp (by omega)
      rw [hempty]
      rfl

end Loop

section Sync

def NoXmm (ops : List PcodeOp) : Prop := ∀ op ∈ ops, op.output.any xmmView = false

theorem NoXmm.nil : NoXmm [] := nofun

theorem NoXmm.cons (h : op.output.any xmmView = false) (hrest : NoXmm ops) :
    NoXmm (op :: ops) := by
  intro op' hop
  rcases mem_cons.mp hop with rfl | hop
  · exact h
  · exact hrest op' hop

theorem not_xmm_of_lt (h : w.offset.toNat < 0x1200) : xmmView w = false := by
  rw [eq_false_iff]
  intro hx
  simp only [xmmView, and_eq_true, decide_eq_true_eq] at hx
  exact absurd hx.1.1.1.2 (not_le.mpr h)

theorem not_xmm_reg {offset : U64} (h : offset.toNat < 0x1200) (size : ℕ) :
    xmmView (reg offset size) = false := not_xmm_of_lt h

theorem not_xmm_unique (offset : U64) (size : ℕ) : xmmView (unique offset size) = false := rfl

theorem lt_of_gprView (h : gprView w = true) : w.offset.toNat < 0xC0 := by
  simp only [gprView, and_eq_true, decide_eq_true_eq] at h
  exact h.1.1.2

theorem base_of_highByte (h : highByte w = true) :
    w.offset.toNat = (w.offset - 1).toNat + 1 ∧ (w.offset - 1).toNat < 0x20 ∧
      (w.offset - 1).toNat % 8 = 0 := by
  simp only [highByte, and_eq_true, beq_iff_eq, decide_eq_true_eq] at h
  obtain ⟨⟨⟨-, hmod⟩, hlt⟩, -⟩ := h
  have hsub : (w.offset - 1).toNat = w.offset.toNat - 1 := by
    rw [BitVec.toNat_sub_of_le]
    · rfl
    · rw [BitVec.le_def]
      change 1 ≤ w.offset.toNat
      omega
  omega

theorem noXmm_highReads (last : Option VarnodeData) (ins : List VarnodeData) :
    NoXmm (highReads last ins) := by
  induction ins generalizing last with
  | nil => exact .nil
  | cons v ins ih =>
    simp only [highReads]
    split
    next hv =>
      have hx : xmmView v = false := by
        have hbase := base_of_highByte hv
        exact not_xmm_of_lt (by omega)
      split
      · exact .cons hx (ih _)
      · exact ih _
    · exact ih _

theorem noXmm_before : NoXmm (before high op) := by
  unfold before
  split
  · exact noXmm_highReads _ _
  · exact .nil

theorem noXmm_gprAfter : NoXmm (gprAfter high op tmp).1 := by
  unfold gprAfter
  cases op.output with
  | none => exact .nil
  | some w =>
    simp only
    split
    next hh =>
      have hlt : (w.offset - 1).toNat < 0x1200 := by
        have hbase := (base_of_highByte (and_eq_true_iff.mp hh).2).2.1
        omega
      have hr := not_xmm_reg hlt
      exact .cons (hr _) (.cons (not_xmm_unique _ _) (.cons (hr _) (.cons (hr _) .nil)))
    · split
      next hg =>
        have hlt : w.offset.toNat < 0x1200 := by
          have hlow := lt_of_gprView hg
          omega
        have hr := not_xmm_reg hlt
        unfold gprViews
        split
        · simp only
          split
          · exact .cons (hr _) (.cons (hr _) (.cons (hr _) .nil))
          · exact .nil
        · simp only
          split
          · exact .cons (hr _) (.cons (hr _) (.cons (hr _) .nil))
          · exact .cons (hr _) .nil
        · simp only
          split
          · exact .cons (not_xmm_unique _ _) (.cons (hr _) (.cons (hr _) (.cons (hr _) .nil)))
          · exact .nil
      · exact .nil

theorem syncLoop_cons (op : PcodeOp) (rest : List PcodeOp) (u : U64) :
    syncLoop zeroUpper (op :: rest) u =
      op :: ((xmmAfter zeroUpper op u).1 ++ syncLoop zeroUpper rest (xmmAfter zeroUpper op u).2) := by
  unfold xmmAfter
  simp only [syncLoop]
  cases op.output with
  | none => rfl
  | some w =>
    cases hx : xmmView w with
    | false => simp [Option.filter, hx]
    | true => simp [Option.filter, hx]

theorem syncLoop_append (zeroUpper : Bool) (h : NoXmm ops) (rest : List PcodeOp) (u : U64) :
    syncLoop zeroUpper (ops ++ rest) u = ops ++ syncLoop zeroUpper rest u := by
  induction ops with
  | nil => rfl
  | cons op ops ih =>
    have hop := h op mem_cons_self
    have hnone : xmmAfter zeroUpper op u = ([], u) := by
      unfold xmmAfter
      cases ho : op.output with
      | none => rfl
      | some w =>
        rw [ho, Option.any_some] at hop
        simp only [hop, false_eq_true, if_false]
    rw [cons_append, syncLoop_cons, hnone, nil_append, cons_append,
      ih fun op' hop' => h op' (mem_cons_of_mem _ hop')]

theorem syncLoop_expandGpr (t u : U64) :
    syncLoop zeroUpper (expandGpr high ops t) u = expanded high zeroUpper ops t u := by
  induction ops generalizing t u with
  | nil => rfl
  | cons op ops ih =>
    simp only [expandGpr, expanded]
    rw [syncLoop_append _ noXmm_before, syncLoop_cons, syncLoop_append _ noXmm_gprAfter, ih]

theorem noXmm_expandGpr (h : NoXmm ops) (t : U64) : NoXmm (expandGpr high ops t) := by
  induction ops generalizing t with
  | nil => exact .nil
  | cons op ops ih =>
    simp only [expandGpr]
    intro op' hop
    rcases mem_append.mp hop with hop | hop
    · exact noXmm_before op' hop
    · rcases mem_cons.mp hop with rfl | hop
      · exact h _ mem_cons_self
      · rcases mem_append.mp hop with hop | hop
        · exact noXmm_gprAfter op' hop
        · exact ih (fun op'' hop' => h op'' (mem_cons_of_mem _ hop')) _ op' hop

end Sync

section Finish

theorem zeroExtend_eq {touch : U64} {extra : ℕ}
    (hmarks : ∀ j op, ops[j]? = some op → j < 63 → marked high op = true →
      touch.getLsbD j = true)
    (hextra : extra = (ops.map (added high)).sum) :
    zeroExtendGpr32Writes ops touch extra high = some (expandGpr high ops 0x7e00) := by
  have hloop : zeroExtendLoop touch high ops.length (ops.length + 1) 0 ops 0x7e00 =
      expandGpr high ops 0x7e00 := by
    apply zeroExtendLoop_eq (by omega) (by omega)
    intro j op hop hj hm
    rw [zero_add] at hj ⊢
    exact hmarks j op hop hj hm
  simp only [zeroExtendGpr32Writes, hloop]
  rw [if_pos]
  rw [length_expandGpr, hextra]

/-- The passes as they are run: each op with its views, room for them all. -/
theorem finishOps_eq (ops : List PcodeOp) (high zeroUpper : Bool) :
    finishOps ops high zeroUpper = some (expanded high zeroUpper ops 0x7e00 0x7f00) := by
  have hfound := find_spec high ops 0 ⟨false, 0, 0⟩
  unfold finishOps
  generalize find high 0 ops ⟨false, 0, 0⟩ = f at hfound
  obtain ⟨hxmm, hextra, htouch⟩ := hfound
  rw [Bool.false_or] at hxmm
  rw [Nat.zero_add] at hextra
  have hbit : ∀ i, f.touch.getLsbD i = true ↔
      ∃ j op, ops[j]? = some op ∧ marked high op = true ∧ min j 63 = i := by
    intro i
    have hi := htouch i
    simpa only [zero_add, BitVec.ofNat_eq_ofNat, BitVec.getLsbD_zero, false_eq_true,
      false_or] using hi
  have hgpr : (if f.touch != 0 && f.extra != 0 then
      zeroExtendGpr32Writes ops
        (if 64 < ops.length then f.touch ||| (BitVec.allOnes 64 <<< 63) else f.touch) f.extra high
      else some ops) = some (expandGpr high ops 0x7e00) := by
    have hlow : ∀ j op, ops[j]? = some op → j < 63 → marked high op = true →
        f.touch.getLsbD j = true :=
      fun j op hop hj hm => (hbit j).mpr ⟨j, op, hop, hm, by omega⟩
    split
    · apply zeroExtend_eq _ hextra
      intro j op hop hj hm
      split
      · rw [BitVec.getLsbD_or, hlow j op hop hj hm, Bool.true_or]
      · exact hlow j op hop hj hm
    next hnone =>
      simp only [and_eq_true, bne_iff_ne, ne_eq, not_and_or, not_not] at hnone
      have hzero : ∀ op ∈ ops, added high op = 0 := by
        intro op hop
        rcases hnone with htz | hez
        · apply added_of_not_marked
          by_contra hm
          rw [not_eq_false] at hm
          obtain ⟨j, hj⟩ := mem_iff_getElem?.mp hop
          have hset := (hbit (min j 63)).mpr ⟨j, op, hj, hm, rfl⟩
          rw [htz] at hset
          simp only [BitVec.ofNat_eq_ofNat, BitVec.getLsbD_zero, false_eq_true] at hset
        · rw [hextra] at hez
          exact sum_eq_zero_iff.mp hez _ (mem_map_of_mem hop)
      rw [expandGpr_of_added_zero hzero]
  simp only [hgpr, Option.map_some, hxmm]
  congr 1
  split
  · exact syncLoop_expandGpr _ _
  next hx =>
    have hnox : NoXmm ops := by
      intro op hop
      by_contra hw
      rw [not_eq_false] at hw
      exact hx (any_eq_true.mpr ⟨op, hop, hw⟩)
    have hnone : NoXmm (expandGpr high ops 0x7e00) := noXmm_expandGpr hnox 0x7e00
    have happend := syncLoop_append zeroUpper hnone [] 0x7f00
    rw [append_nil, syncLoop, append_nil, syncLoop_expandGpr] at happend
    exact happend.symm

end Finish

end ViewExpansion
