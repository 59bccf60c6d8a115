import Reargo.BlockFlowSound

/-!
# The walk by block number records what the walk keyed by addresses records

Over a lift whose addresses strictly increase both walks run the same flow over blocks, but
for what the walk keyed by addresses leaves out at the last address there is.
-/
namespace BlockFlowAgree

open PcodeModel BlockShapes BlockFlow BlockPaths BlockRuns BlockIndexRuns BlockCfg BlockFlowSound List
open Option hiding all all_eq_true or or_assoc
open EdgeFlow
open ControlFlow (LiftedInstruction)

section Flood

variable {κ : Type} [DecidableEq κ] {nodes : List κ} {next : κ → List κ}

variable (nodes next) in
theorem flood_closed (reached stack : List κ) (hstack : ∀ b ∈ stack, b ∈ reached)
    (hdone : ∀ b ∈ reached, b ∉ stack → ∀ s ∈ next b, s ∈ nodes → s ∈ reached) :
    (∀ b ∈ reached, b ∈ flood nodes next reached stack) ∧
      ∀ b ∈ flood nodes next reached stack, ∀ s ∈ next b, s ∈ nodes →
        s ∈ flood nodes next reached stack := by
  induction reached, stack using flood.induct nodes next with
  | case1 reached =>
    unfold flood
    exact ⟨fun _ h => h, fun b hb => hdone b hb not_mem_nil⟩
  | case2 reached b rest fresh hfresh ih =>
    unfold flood
    rw [if_pos hfresh]
    refine ih (fun x hx => hstack x (mem_cons_of_mem _ hx)) fun x hx hrest s hs hnode => ?_
    by_cases hxb : x = b
    · subst hxb
      by_contra hs'
      have hmem : s ∈ fresh := mem_eraseDups.mpr (mem_filter.mpr ⟨hs, decide_eq_true ⟨hnode, hs'⟩⟩)
      rw [hfresh] at hmem
      cases hmem
    · refine hdone x hx ?_ s hs hnode
      rw [mem_cons, not_or]
      exact ⟨hxb, hrest⟩
  | case3 reached b rest fresh hfresh ih =>
    unfold flood
    rw [if_neg hfresh]
    have hgrown := ih (fun x hx => ?_) fun x hx hrest s hs hnode => ?_
    · exact ⟨fun x hx => hgrown.1 x (mem_append_left _ hx), hgrown.2⟩
    · rcases mem_append.mp hx with hx | hx
      · exact mem_append_right _ (mem_reverse.mp hx)
      · exact mem_append_left _ (hstack x (mem_cons_of_mem _ hx))
    · rw [mem_append, mem_reverse, not_or] at hrest
      have hx : x ∈ reached := (mem_append.mp hx).resolve_right hrest.1
      by_cases hs' : s ∈ reached
      · exact mem_append_left _ hs'
      · by_cases hxb : x = b
        · subst hxb
          exact mem_append_right _ (mem_eraseDups.mpr
            (mem_filter.mpr ⟨hs, decide_eq_true ⟨hnode, hs'⟩⟩))
        · refine absurd (hdone x hx ?_ s hs hnode) hs'
          rw [mem_cons, not_or]
          exact ⟨hxb, hrest.2⟩

theorem flood_sound {P : κ → Prop} (hnext : ∀ b, P b → ∀ s ∈ next b, s ∈ nodes → P s)
    (reached stack : List κ) (hreached : ∀ b ∈ reached, P b) (hstack : ∀ b ∈ stack, P b) :
    ∀ b ∈ flood nodes next reached stack, P b := by
  induction reached, stack using flood.induct nodes next with
  | case1 reached =>
    unfold flood
    exact hreached
  | case2 reached b rest fresh hfresh ih =>
    unfold flood
    rw [if_pos hfresh]
    exact ih hreached fun x hx => hstack x (mem_cons_of_mem _ hx)
  | case3 reached b rest fresh hfresh ih =>
    have hP : ∀ s ∈ fresh, P s := by
      intro s hs
      obtain ⟨hmem, hcond⟩ := mem_filter.mp (mem_eraseDups.mp hs)
      exact hnext b (hstack b mem_cons_self) s hmem (of_decide_eq_true hcond).1
    unfold flood
    rw [if_neg hfresh]
    refine ih (fun x hx => ?_) fun x hx => ?_
    · rcases mem_append.mp hx with hx | hx
      · exact hreached x hx
      · exact hP x hx
    · rcases mem_append.mp hx with hx | hx
      · exact hP x (mem_reverse.mp hx)
      · exact hstack x (mem_cons_of_mem _ hx)

theorem mem_flood {r b : κ} : b ∈ flood nodes next [r] [r] ↔
    Relation.ReflTransGen (fun a s => s ∈ next a ∧ s ∈ nodes) r b := by
  have hr : r ∈ [r] := mem_singleton.mpr rfl
  constructor
  · refine flood_sound (fun a ha s hs hnode => ha.tail ⟨hs, hnode⟩) [r] [r] ?_ ?_ b <;>
      intro x hx <;> exact mem_singleton.mp hx ▸ .refl
  · obtain ⟨hfrom, hclosed⟩ := flood_closed nodes next [r] [r]
      (fun _ h => h) fun x hx hnot => absurd hx hnot
    intro h
    induction h with
    | refl => exact hfrom r hr
    | tail _ hstep ih => exact hclosed _ ih _ hstep.1 hstep.2

end Flood

theorem eq_of_sorted {κ : Type} [LinearOrder κ] {l l' : List κ} (h : l.Pairwise (· < ·))
    (h' : l'.Pairwise (· < ·)) (hmem : ∀ a, a ∈ l ↔ a ∈ l') : l = l' := by
  have hperm : l.Perm l' := (perm_ext_iff_of_nodup (h.imp fun h => ne_of_lt h)
    (h'.imp fun h => ne_of_lt h)).mpr hmem
  exact hperm.eq_of_pairwise (fun a b _ _ hab hba => absurd hba (lt_asymm hab)) h h'

variable {x : LiftedInstruction} {i : ℕ}

section Starts

variable {insns : List LiftedInstruction} {external : List U64} {inBody : U64 → Bool} {s : U64}

/-- The addresses that follow an instruction that ends a block. -/
def AfterEnd (insns : List LiftedInstruction) (s : U64) : Prop :=
  ∃ j x y, insns[j]? = some x ∧ insns[j + 1]? = some y ∧ x.ops.any isEnd = true ∧ y.address = s

theorem afterEnd_cons {l : List LiftedInstruction} : AfterEnd (x :: l) s ↔
      (x.ops.any isEnd = true ∧ ∃ y ∈ l.head?, y.address = s) ∨ AfterEnd l s := by
  constructor
  · rintro ⟨j, y, z, hy, hz, hends, hs⟩
    cases j with
    | zero =>
      obtain rfl : x = y := some.inj hy
      refine .inl ⟨hends, z, ?_, hs⟩
      rw [head?_eq_getElem?]
      exact hz
    | succ j => exact .inr ⟨j, y, z, hy, hz, hends, hs⟩
  · rintro (⟨hends, y, hy, hs⟩ | ⟨j, y, z, hy, hz, hends, hs⟩)
    · refine ⟨0, x, y, rfl, ?_, hends, hs⟩
      rw [head?_eq_getElem?] at hy
      exact hy
    · exact ⟨j + 1, y, z, hy, hz, hends, hs⟩

theorem mem_foldl_collectStarts (l : List LiftedInstruction) (hl : ∀ x ∈ l, x ∈ insns)
    {starts : List U64} (ends : Bool) (h : GoodStarts insns starts) :
    s ∈ (l.foldl (collectStarts insns) (starts, ends)).1 ↔
      s ∈ starts ∨ (∃ x ∈ l, s ∈ jumpTargets x ∧ inLift insns s = true) ∨
        (ends = true ∧ ∃ x ∈ l.head?, x.address = s) ∨ AfterEnd l s := by
  induction l generalizing starts ends with
  | nil => simp [AfterEnd]
  | cons x l ih =>
    obtain ⟨hgood, hmem⟩ := collectStarts_spec (a := (starts, ends)) h (hl x mem_cons_self)
    rw [foldl_cons, ih (fun y hy => hl y (mem_cons_of_mem _ hy))
      (collectStarts insns (starts, ends) x).2 hgood, hmem, afterEnd_cons]
    have hends : (collectStarts insns (starts, ends) x).2 = x.ops.any isEnd := rfl
    have hhead : (∃ y ∈ (x :: l).head?, y.address = s) ↔ s = x.address :=
      ⟨fun ⟨_, hy, hs⟩ => some.inj hy ▸ hs.symm, fun hs => ⟨x, rfl, hs.symm⟩⟩
    rw [hends, hhead, exists_mem_cons_iff]
    dsimp only
    generalize (∃ y ∈ l, s ∈ jumpTargets y ∧ inLift insns s = true) = jump
    generalize (∃ y ∈ l.head?, y.address = s) = head
    tauto

theorem mem_legacyStarts {entry : U64} (hentry : inLift insns entry = true) :
    s ∈ legacyStarts insns external entry ↔ s = entry ∨ (s ∈ external ∧ inLift insns s = true) ∨
        (∃ x ∈ insns, s ∈ jumpTargets x ∧ inLift insns s = true) ∨ AfterEnd insns s := by
  have hone : GoodStarts insns [entry] :=
    ⟨pairwise_singleton _ _, fun s hs => mem_singleton.mp hs ▸ hentry⟩
  obtain ⟨hgood, hmem⟩ := hone.insertAll (external.filter (inLift insns))
    fun x hx => (mem_filter.mp hx).2
  unfold legacyStarts
  dsimp only
  rw [mem_foldl_collectStarts insns (fun _ hx => hx) false hgood, hmem, mem_singleton,
    mem_filter, or_assoc]
  simp

section Increasing

variable (hinc : (insns.map LiftedInstruction.address).Pairwise (· < ·))
include hinc

theorem isStart_iff {first : LiftedInstruction} (hfirst : insns.head? = some first)
    (hi : insns[i]? = some x) :
    IsStart (LiftShape.of insns) external i ↔ x.address = first.address ∨ x.address ∈ external ∨
        (∃ y ∈ insns, x.address ∈ jumpTargets y) ∨ AfterEnd insns x.address := by
  have haddr : ∀ a, (LiftShape.of insns).addrs[i]? = some a ↔ x.address = a := by
    intro a
    rw [addrs_eq, getElem?_map, hi, map_some, some.injEq]
  have hzero : i = 0 ↔ x.address = first.address := by
    rw [head?_eq_getElem?] at hfirst
    refine ⟨fun h => ?_, fun h => index_unique hinc hi hfirst h⟩
    subst h
    rw [some.inj (hi.symm.trans hfirst)]
  have hexternal : (∃ a ∈ external, (LiftShape.of insns).addrs[i]? = some a) ↔
      x.address ∈ external := by
    refine ⟨fun ⟨a, ha, hx⟩ => (haddr a).mp hx ▸ ha, fun h => ⟨x.address, h, (haddr _).mpr rfl⟩⟩
  have hjump : (∃ t ∈ (LiftShape.of insns).branches, (LiftShape.of insns).addrs[i]? = some t.2) ↔
      ∃ y ∈ insns, x.address ∈ jumpTargets y := by
    rw [branches_eq]
    constructor
    · rintro ⟨t, ht, hx⟩
      obtain ⟨e, he, hmem⟩ := mem_flatMap.mp ht
      obtain ⟨a, ha, rfl⟩ := mem_map.mp hmem
      refine ⟨e.1, (mem_zipIdx_iff_getElem?.mp he) |> mem_of_getElem?, ?_⟩
      rw [(haddr _).mp hx]
      exact ha
    · rintro ⟨y, hy, hmem⟩
      obtain ⟨j, hj⟩ := mem_iff_getElem?.mp hy
      refine ⟨(j, x.address), mem_flatMap.mpr ⟨(y, j), ?_, ?_⟩, (haddr _).mpr rfl⟩
      · exact mem_zipIdx_iff_getElem?.mpr hj
      · exact mem_map.mpr ⟨x.address, hmem, rfl⟩
  have hflag : ∀ {j : ℕ} {y : LiftedInstruction}, insns[j]? = some y →
      hasBit ((LiftShape.of insns).flag j) InsnShape.ends = y.ops.any isEnd := by
    intro j y hj
    rw [← hasBit_of_ends]
    congr 1
    change ((insns.map fun insn => (InsnShape.of insn).flags).getD j 0) = _
    rw [getD_eq_getElem?_getD, getElem?_map, hj]
    rfl
  have hafter : (∃ j, i = j + 1 ∧
      hasBit ((LiftShape.of insns).flag j) InsnShape.ends = true) ↔ AfterEnd insns x.address := by
    constructor
    · rintro ⟨j, rfl, hends⟩
      have hj : j < insns.length := by
        have := (List.getElem?_eq_some_iff.mp hi).1
        omega
      have hget := List.getElem?_eq_getElem hj
      exact ⟨j, _, x, hget, hi, (hflag hget).symm.trans hends, rfl⟩
    · rintro ⟨j, y, z, hy, hz, hends, hs⟩
      exact ⟨j, index_unique hinc hi hz hs.symm, (hflag hy).trans hends⟩
  unfold IsStart
  rw [hzero, hexternal, hjump, hafter]

theorem legacyStarts_eq {first : LiftedInstruction} (hfirst : insns.head? = some first) :
    legacyStarts insns external first.address = (Cfg.build insns external inBody).startAddr := by
  have hne : insns ≠ [] := by
    rintro rfl
    cases hfirst
  have hentry : inLift insns first.address = true :=
    inLift_iff.mpr ⟨first, mem_of_mem_head? hfirst, rfl⟩
  have hF := build_fits external inBody hinc hne
  have hgood := (legacyStarts_spec external hentry).1
  have hmem : ∀ s, s ∈ legacyStarts insns external first.address ↔
      s ∈ (Cfg.build insns external inBody).startAddr := by
    intro s
    by_cases hin : inLift insns s = true
    · obtain ⟨x, hx, rfl⟩ := inLift_iff.mp hin
      obtain ⟨i, hi⟩ := mem_iff_getElem?.mp hx
      rw [mem_legacyStarts hentry, mem_startAddr hinc hne hi, mem_startsOf hinc,
        isStart_iff hinc hfirst hi]
      simp [hin, (List.getElem?_eq_some_iff.mp hi).1]
    · refine ⟨fun h => absurd (hgood.lifted s h) hin, fun h => absurd ?_ hin⟩
      obtain ⟨_, _, _, x, -, hx, haddr, -⟩ := exists_boundary hinc hne h
      exact inLift_iff.mpr ⟨x, mem_of_getElem? hx, haddr⟩
  exact eq_of_sorted hgood.sorted hF.sorted hmem

end Increasing

end Starts

section Bodies

variable {insns : List LiftedInstruction} {external : List U64} {inBody : U64 → Bool}

theorem find?_gt {l : List U64} (h : l.Pairwise (· < ·)) {k : ℕ} {b : U64} (hk : l[k]? = some b) :
    (l.find? fun s => b < s) = l[k + 1]? := by
  induction l generalizing k with
  | nil => cases hk
  | cons a l ih =>
    rw [pairwise_cons] at h
    cases k with
    | zero =>
      obtain rfl : a = b := some.inj hk
      rw [find?_cons_of_neg (by simp)]
      cases l with
      | nil => rfl
      | cons c l => exact find?_cons_of_pos (decide_eq_true (h.1 c mem_cons_self))
    | succ k =>
      have hab : a < b := h.1 b (mem_of_getElem? hk)
      rw [find?_cons_of_neg (by simpa using hab.le)]
      exact ih h.2 hk

theorem le_last (a : U64) : a ≤ -1 := by
  have ha := a.isLt
  rw [BitVec.le_def]
  change a.toNat ≤ 2 ^ 64 - 1
  omega

theorem lt_last_iff {a : U64} : a < -1 ↔ a ≠ -1 := by
  constructor
  · exact fun h => ne_of_lt h
  · exact fun h => lt_of_le_of_ne (le_last a) h

theorem takeWhile_before {l pre : List LiftedInstruction} {z : LiftedInstruction}
    (hsplit : l = pre ++ [z]) (hz : z.address = -1) (hpre : ∀ x ∈ pre, x.address ≠ -1) :
    l.takeWhile (fun x => x.address ≠ -1) = pre := by
  rw [hsplit, takeWhile_append_of_pos fun x hx => decide_eq_true (hpre x hx),
    takeWhile_cons_of_neg (by simp [hz]), append_nil]

theorem no_stop_of_no_end (h : x.ops.any isEnd = false) : x.ops.any isStop = false := by
  refine any_eq_false.mpr fun op hop => ?_
  rw [isStop_of_isEnd (by simpa using any_eq_false.mp h op hop)]
  exact Bool.false_ne_true

section Increasing

variable (hinc : (insns.map LiftedInstruction.address).Pairwise (· < ·))
include hinc

theorem address_lt {j : ℕ} {y : LiftedInstruction} (hi : insns[i]? = some x)
    (hj : insns[j]? = some y) (hij : i < j) : x.address < y.address := by
  obtain ⟨hi', rfl⟩ := List.getElem?_eq_some_iff.mp hi
  obtain ⟨hj', rfl⟩ := List.getElem?_eq_some_iff.mp hj
  exact pairwise_iff_getElem.mp (pairwise_map.mp hinc) i j hi' hj' hij

theorem indexOf_eq (hi : insns[i]? = some x) : indexOf insns x.address = some i := by
  have hin : inLift insns x.address = true := inLift_iff.mpr ⟨x, mem_of_getElem? hi, rfl⟩
  obtain ⟨j, hj⟩ := isSome_iff_exists.mp hin
  obtain ⟨y, hy, haddr⟩ := indexOf_spec hj
  rw [hj, index_unique hinc hy hi haddr]

theorem takeWhile_body {lo hi : ℕ} {e : U64} (hlo : lo ≤ hi)
    (hend : (hi = insns.length ∧ e = -1) ∨ ∃ x, insns[hi]? = some x ∧ x.address = e) :
    ((insns.drop lo).takeWhile fun x => x.address < e) =
      (slice insns lo hi).takeWhile fun x => x.address ≠ -1 := by
  rcases hend with ⟨rfl, rfl⟩ | ⟨x, hx, rfl⟩
  · have hcut : slice insns lo insns.length = insns.drop lo := by
      unfold slice
      rw [take_length]
    rw [hcut]
    exact congrArg (List.takeWhile · _) (funext fun x => decide_eq_decide.mpr lt_last_iff)
  · have hbelow : ∀ y ∈ slice insns lo hi, y.address < x.address := by
      intro y hy
      obtain ⟨j, hj⟩ := mem_iff_getElem?.mp hy
      unfold slice at hj
      rw [getElem?_drop, getElem?_take] at hj
      split at hj
      · next hlt => exact address_lt hinc hj hx hlt
      · cases hj
    have hsplit : insns.drop lo = slice insns lo hi ++ insns.drop hi := by
      unfold slice
      rw [drop_take]
      have hdrop := take_append_drop (hi - lo) (insns.drop lo)
      rw [drop_drop, Nat.add_sub_cancel' hlo] at hdrop
      exact hdrop.symm
    have hall : (slice insns lo hi).takeWhile (fun y => y.address ≠ -1) = slice insns lo hi :=
      takeWhile_eq_self_iff.mpr fun y hy =>
        decide_eq_true (lt_last_iff.mp ((hbelow y hy).trans_le (le_last _)))
    rw [hall, hsplit, takeWhile_append_of_pos fun y hy => decide_eq_true (hbelow y hy)]
    have hstop : (insns.drop hi).takeWhile (fun y => y.address < x.address) = [] := by
      obtain ⟨hlt, rfl⟩ := List.getElem?_eq_some_iff.mp hx
      rw [drop_eq_getElem_cons hlt, takeWhile_cons_of_neg]
      simp
    rw [hstop, append_nil]

end Increasing

end Bodies

section Quiet

variable {S T : Type} [FlowState S] {starts : List U64} {snapshot : S → T} {w : LegacyWalk S T}

theorem ops_quiet (address : U64) (ops : List PcodeOp) (hcall : ∀ op ∈ ops, isCall op = false)
    (hjump : ∀ op ∈ ops, isJump op = true → ∀ t ∈ InsnShape.branchTarget op, t ∉ starts) :
    (ops.foldl (legacyOp starts snapshot address) w).out = w.out ∧
      (ops.foldl (legacyOp starts snapshot address) w).snaps = w.snaps := by
  induction ops generalizing w with
  | nil => exact ⟨rfl, rfl⟩
  | cons op ops ih =>
    rw [foldl_cons]
    obtain ⟨hout, hsnaps⟩ := ih (w := legacyOp starts snapshot address w op)
      (fun x hx => hcall x (mem_cons_of_mem _ hx))
      fun x hx => hjump x (mem_cons_of_mem _ hx)
    have hone : (legacyOp starts snapshot address w op).out = w.out ∧
        (legacyOp starts snapshot address w op).snaps = w.snaps := by
      have hcall' := hcall op mem_cons_self
      have hnone : ∀ s, isJump op = true → addJumpAt starts op w.out s = w.out := by
        intro s hj
        unfold addJumpAt
        cases ht : InsnShape.branchTarget op with
        | none => rfl
        | some t =>
          have hmem := hjump op mem_cons_self hj t ht
          rw [filter_some, if_neg (by simpa using hmem)]
      unfold isCall at hcall'
      rw [Bool.or_eq_false_iff, decide_eq_false_iff_not, decide_eq_false_iff_not] at hcall'
      unfold legacyOp
      split
      · next hop => exact absurd hop hcall'.1
      · next hop => exact absurd hop hcall'.2
      · next hop => exact ⟨hnone _ (decide_eq_true (.inr hop)), rfl⟩
      · next hop => exact ⟨hnone _ (decide_eq_true (.inl hop)), rfl⟩
      · exact ⟨rfl, rfl⟩
      · exact ⟨rfl, rfl⟩
      · exact ⟨rfl, rfl⟩
    exact ⟨hout.trans hone.1, hsnaps.trans hone.2⟩

variable (snapshot w) in
theorem legacyInsns_quiet (l : List LiftedInstruction) {z : LiftedInstruction}
    (hcall : z.ops.any isCall = false) (hjump : ∀ t ∈ jumpTargets z, t ∉ starts) :
    (legacyInsns starts snapshot (l ++ [z]) w).out = (legacyInsns starts snapshot l w).out ∧
      (legacyInsns starts snapshot (l ++ [z]) w).snaps =
        (legacyInsns starts snapshot l w).snaps := by
  have hz : ∀ w : LegacyWalk S T, (z.ops.foldl (legacyOp starts snapshot z.address) w).out = w.out ∧
        (z.ops.foldl (legacyOp starts snapshot z.address) w).snaps = w.snaps := by
    intro w
    refine ops_quiet z.address z.ops (fun op hop => ?_) fun op hop hj t ht => ?_
    · simpa using any_eq_false.mp hcall op hop
    · exact hjump t (mem_filterMap.mpr ⟨op, mem_filter.mpr ⟨hop, hj⟩, ht⟩)
  induction l generalizing w with
  | nil =>
    rw [nil_append]
    unfold legacyInsns
    dsimp only
    split
    · exact hz w
    · exact hz w
  | cons x l ih =>
    rw [cons_append]
    unfold legacyInsns
    dsimp only
    split
    · exact ih _
    · exact ⟨rfl, rfl⟩

theorem legacyOp_targets {P : U64 → Prop} (h : ∀ e ∈ w.out, P e.1) (address : U64) (op : PcodeOp)
    (hop : isJump op = true → ∀ t ∈ InsnShape.branchTarget op, t ∈ starts → P t) :
    ∀ e ∈ (legacyOp starts snapshot address w op).out, P e.1 := by
  have hadd : isJump op = true → ∀ s, ∀ e ∈ addJumpAt starts op w.out s, P e.1 := by
    intro hjump s e he
    unfold addJumpAt at he
    split at he
    · next t ht =>
      obtain ⟨htarget, hstart⟩ := filter_eq_some_iff.mp ht
      have hkey : e.1 ∈ (addEdgeAt w.out t s).map Prod.fst := mem_map.mpr ⟨e, he, rfl⟩
      rcases OrderedMap.mem_keys_insertEntry hkey with hk | hk
      · exact hk ▸ hop hjump t htarget (of_decide_eq_true hstart)
      · obtain ⟨e', he', heq⟩ := mem_map.mp hk
        exact heq ▸ h e' he'
    · exact h e he
  unfold legacyOp
  split
  · exact h
  · exact h
  · next hcode => exact hadd (decide_eq_true (.inr hcode)) _
  · next hcode => exact hadd (decide_eq_true (.inl hcode)) _
  · exact h
  · exact h
  · exact h

variable (starts snapshot w) in
theorem legacyInsns_targets {P : U64 → Prop} (l : List LiftedInstruction)
    (h : ∀ e ∈ w.out, P e.1) (hl : ∀ x ∈ l, ∀ t ∈ jumpTargets x, t ∈ starts → P t) :
    ∀ e ∈ (legacyInsns starts snapshot l w).out, P e.1 := by
  induction l generalizing w with
  | nil => exact h
  | cons x l ih =>
    have hx : ∀ e ∈ (x.ops.foldl (legacyOp starts snapshot x.address) w).out, P e.1 := by
      refine List.foldlRecOn x.ops (legacyOp starts snapshot x.address)
        (motive := fun w => ∀ e ∈ w.out, P e.1) h fun _ hw op hop => ?_
      refine legacyOp_targets hw _ op fun hjump t ht hstart => ?_
      refine hl x mem_cons_self t ?_ hstart
      exact mem_filterMap.mpr ⟨op, mem_filter.mpr ⟨hop, hjump⟩, ht⟩
    unfold legacyInsns
    dsimp only
    split
    · exact ih _ hx fun y hy => hl y (mem_cons_of_mem _ hy)
    · exact hx

theorem legacyInsns_stops {l : List LiftedInstruction} (hx : x ∈ l)
    (hstop : x.ops.any isStop = true) (hfalls : w.fallsThrough = true) :
    (legacyInsns starts snapshot l w).fallsThrough = false := by
  rw [legacyInsns_eq _ hfalls, foldl_insnWalk_fallsThrough, hfalls, Bool.true_and]
  by_contra hall
  rw [Bool.not_eq_false, all_eq_true] at hall
  have hnone : ∀ y ∈ untilStop l, y.ops.any isStop = false := fun y hy => by
    simpa using hall y hy
  rw [untilStop_eq_self hnone] at hnone
  rw [hnone x hx] at hstop
  cases hstop

end Quiet

structure Spans (cfg : Cfg) (insns : List LiftedInstruction) (k lo hi : ℕ) : Prop where
  lt : lo < hi
  le : hi ≤ insns.length
  body : (blockInsns cfg insns k).map Prod.fst = slice insns lo hi
  first : ∃ x, insns[lo]? = some x ∧ x.address = addrOf cfg k
  next : (hi = insns.length ∧ cfg.startAddr[k + 1]? = none) ∨
    ∃ y, insns[hi]? = some y ∧ cfg.startAddr[k + 1]? = some y.address
  inner : ∀ j x, lo < j → j < hi → insns[j]? = some x → x.address ∉ cfg.startAddr

theorem Spans.mem_iff {cfg : Cfg} {insns : List LiftedInstruction} {k lo hi : ℕ}
    (h : Spans cfg insns k lo hi) :
    x ∈ (blockInsns cfg insns k).map Prod.fst ↔ ∃ j, lo ≤ j ∧ j < hi ∧ insns[j]? = some x := by
  rw [h.body, mem_iff_getElem?]
  unfold slice
  constructor
  · rintro ⟨j, hj⟩
    rw [getElem?_drop, getElem?_take] at hj
    split at hj
    · next hlt => exact ⟨lo + j, Nat.le_add_right _ _, hlt, hj⟩
    · cases hj
  · rintro ⟨j, hlo, hhi, hj⟩
    refine ⟨j - lo, ?_⟩
    rw [List.getElem?_drop, List.getElem?_take, Nat.add_sub_cancel' hlo, if_pos hhi, hj]

section Blocks

variable {insns : List LiftedInstruction} {external : List U64} {inBody : U64 → Bool} {cfg : Cfg}
  (hinc : (insns.map LiftedInstruction.address).Pairwise (· < ·)) (hne : insns ≠ [])
  (hcfg : Cfg.build insns external inBody = cfg)
include hinc hne hcfg

variable (inBody) in
omit hcfg in
theorem spans_build {k : ℕ} (hk' : k < (startsOf insns external).length) :
    Spans (Cfg.build insns external inBody) insns k
      (boundary (startsOf insns external) insns.length k)
      (boundary (startsOf insns external) insns.length (k + 1)) := by
  have hlt : ∀ x ∈ startsOf insns external, x < insns.length := fun x hx => startsOf_lt hx
  have hsorted := startsOf_sorted insns external
  obtain ⟨hless, hle, hbody, hhead⟩ := @boundary_spec _ _ inBody hinc hne _ _ _ hk' rfl rfl
  refine ⟨hless, hle, hbody, hhead, ?_, fun j y hlo hhi hj hstart => ?_⟩
  · rw [build_startAddr hinc hne, getElem?_map]
    by_cases hnext : k + 1 < (startsOf insns external).length
    · have hy := getElem?_eq_getElem (startsOf_lt (boundary_mem (n := insns.length) hnext))
      refine .inr ⟨_, hy, ?_⟩
      rw [getElem?_eq_getElem hnext, map_some, ← getD_addrs hy, boundary_eq hnext]
    · exact .inl ⟨boundary_end (not_lt.mp hnext),
        by rw [getElem?_eq_none (not_lt.mp hnext), map_none]⟩
  · exact notMem_between hsorted hlt hlo hhi ((mem_startAddr hinc hne hj).mp hstart)

theorem fits_build : Fits cfg insns := hcfg ▸ build_fits external inBody hinc hne

theorem exists_spans {k : ℕ} (hk : k < cfg.startIdx.length) : ∃ lo hi, Spans cfg insns k lo hi := by
  subst hcfg
  rw [build_startIdx inBody hinc hne] at hk
  exact ⟨_, _, spans_build inBody hinc hne hk⟩

/-- No instruction of a block but its last ends a block. -/
theorem Spans.inner_end {k lo hi : ℕ} (h : Spans cfg insns k lo hi) {j : ℕ}
    (hlo : lo ≤ j) (hhi : j + 1 < hi) (hj : insns[j]? = some x) : x.ops.any isEnd = false := by
  subst hcfg
  by_contra hends
  rw [Bool.not_eq_false] at hends
  have hlt : j + 1 < insns.length := lt_of_lt_of_le hhi h.le
  have hget := getElem?_eq_getElem hlt
  obtain ⟨first, hfirst⟩ : ∃ first, insns.head? = some first := by
    cases insns with
    | nil => exact absurd rfl hne
    | cons first rest => exact ⟨first, rfl⟩
  refine h.inner (j + 1) _ (by omega) hhi hget ?_
  rw [mem_startAddr hinc hne hget, mem_startsOf hinc, isStart_iff hinc hfirst hget]
  exact ⟨hlt, .inr (.inr (.inr ⟨j, x, _, hj, hget, hends, rfl⟩))⟩

omit hne hcfg in
theorem Spans.last_address {k lo hi : ℕ} (h : Spans cfg insns k lo hi) :
    (∀ x ∈ slice insns lo hi, x.address ≠ -1) ∨
      ∃ pre z, slice insns lo hi = pre ++ [z] ∧ z.address = -1 ∧
        (∀ x ∈ pre, x.address ≠ -1) ∧ cfg.startAddr[k + 1]? = none := by
  by_cases hlast : ∀ x ∈ slice insns lo hi, x.address ≠ -1
  · exact .inl hlast
  · right
    push Not at hlast
    obtain ⟨z, hz, hmax⟩ := hlast
    obtain ⟨j, hlo, hhi, hj⟩ := h.mem_iff.mp (h.body.symm ▸ hz)
    have hend : ∀ i y, insns[i]? = some y → i ≤ j := by
      intro i y hi
      by_contra hlt
      have := address_lt hinc hj hi (not_le.mp hlt)
      rw [hmax] at this
      exact absurd this (not_lt.mpr (le_last _))
    have hjn : j + 1 = insns.length := by
      have hj' := (List.getElem?_eq_some_iff.mp hj).1
      by_contra hne'
      have := hend (j + 1) _ (List.getElem?_eq_getElem (by omega))
      omega
    have hhi' : hi = j + 1 := by
      have := h.le
      omega
    subst hhi'
    refine ⟨slice insns lo j, z, ?_, hmax, fun x hx => ?_, ?_⟩
    · have hget : (slice insns lo (j + 1))[j - lo]? = some z := by
        unfold slice
        rw [getElem?_drop, getElem?_take, Nat.add_sub_cancel' hlo,
          if_pos (Nat.lt_succ_self j), hj]
      unfold slice
      rw [take_add_one, hj, drop_append_of_le_length]
      · rfl
      · rw [length_take]
        omega
    · obtain ⟨i, hi⟩ := mem_iff_getElem?.mp hx
      unfold slice at hi
      rw [getElem?_drop, getElem?_take] at hi
      split at hi
      · next hlt => exact lt_last_iff.mp (hmax ▸ address_lt hinc hi hj hlt)
      · cases hi
    · rcases h.next with ⟨-, hnone⟩ | ⟨y, hy, -⟩
      · exact hnone
      · have := hend (j + 1) y hy
        omega

omit hinc hcfg hne in
theorem blockEnd_eq {k : ℕ} (hF : Fits cfg insns) (hk : k < cfg.startIdx.length) :
    blockEnd cfg.startAddr (addrOf cfg k) = (cfg.startAddr[k + 1]?).getD (-1) := by
  unfold blockEnd
  rw [find?_gt hF.sorted (hF.getElem hk)]

omit hcfg hne in
theorem Spans.legacyBody_eq {k lo hi : ℕ} (h : Spans cfg insns k lo hi) (hF : Fits cfg insns)
    (hk : k < cfg.startIdx.length) :
    legacyBody insns cfg.startAddr (addrOf cfg k) =
      (slice insns lo hi).takeWhile fun x => x.address ≠ -1 := by
  obtain ⟨x, hx, haddr⟩ := h.first
  unfold legacyBody
  rw [blockEnd_eq hF hk, ← haddr, indexOf_eq hinc hx]
  refine takeWhile_body hinc h.lt.le ?_
  rcases h.next with ⟨hlen, hnone⟩ | ⟨y, hy, hstart⟩
  · exact .inl ⟨hlen, by rw [hnone]; rfl⟩
  · exact .inr ⟨y, hy, by rw [hstart]; rfl⟩

end Blocks

structure KeepsLast (cfg : Cfg) (insns : List LiftedInstruction) (k : ℕ) : Prop where
  calls : ∀ e ∈ blockInsns cfg insns k, e.1.address = -1 → e.1.ops.any isCall = false
  jumps : ∀ e ∈ blockInsns cfg insns k, e.1.address = -1 → ∀ t ∈ jumpTargets e.1, t ∉ cfg.startAddr
  falls : cfg.startAddr[k + 1]? = some (-1) →
    ∃ e ∈ blockInsns cfg insns k, e.1.ops.any isStop = true

section Walks

variable {S T : Type} [FlowState S] {insns : List LiftedInstruction} {cfg : Cfg}
  {unknown : U64 → Bool} {entry : U64} {snapshot : S → T} {k lo hi : ℕ}

@[simp]
theorem indexBlocks_starts : (indexBlocks cfg insns).starts = cfg.startAddr := rfl

theorem indexBody_eq (h : Spans cfg insns k lo hi) (hF : Fits cfg insns)
    (hk : k < cfg.startIdx.length) :
    (indexBlocks cfg insns).body (addrOf cfg k) = slice insns lo hi := by
  change ((binarySearch cfg.startAddr (addrOf cfg k)).map _).getD [] = _
  rw [hF.search hk, map_some, getD_some, h.body]

theorem indexNext_eq (hF : Fits cfg insns) (hk : k < cfg.startIdx.length) :
    (indexBlocks cfg insns).next (addrOf cfg k) = cfg.startAddr[k + 1]? := by
  change (binarySearch cfg.startAddr (addrOf cfg k)).bind _ = _
  rw [hF.search hk, bind_some]

theorem outOf_stops (next next' : Option U64) {w : LegacyWalk S T} (h : w.fallsThrough = false) :
    outOf next w = outOf next' w := by
  unfold outOf
  rw [h, if_neg Bool.false_ne_true, if_neg Bool.false_ne_true]

theorem walk_agrees (hinc : (insns.map LiftedInstruction.address).Pairwise (· < ·))
    (h : Spans cfg insns k lo hi) (hF : Fits cfg insns) (hk : k < cfg.startIdx.length)
    (hlast : KeepsLast cfg insns k) (s : S) :
    (flowOf (indexBlocks cfg insns) snapshot).out (addrOf cfg k) s =
        (flowOf (legacyBlocks insns cfg.startAddr unknown entry) snapshot).out (addrOf cfg k) s ∧
      (flowOf (indexBlocks cfg insns) snapshot).record (addrOf cfg k) s =
        (flowOf (legacyBlocks insns cfg.startAddr unknown entry) snapshot).record
          (addrOf cfg k) s := by
  dsimp only [flowOf, Blocks.walk, legacyBlocks, indexBlocks_starts]
  rw [indexBody_eq h hF hk, indexNext_eq hF hk, h.legacyBody_eq hinc hF hk, blockEnd_eq hF hk]
  rcases h.last_address hinc with hbelow | ⟨pre, z, hsplit, hz, hpre, hnone⟩
  · have hall : (slice insns lo hi).takeWhile (fun x => x.address ≠ -1) = slice insns lo hi :=
      takeWhile_eq_self_iff.mpr fun x hx => decide_eq_true (hbelow x hx)
    rw [hall]
    refine ⟨?_, rfl⟩
    rcases h.next with ⟨-, hnone⟩ | ⟨y, hy, hstart⟩
    · rw [hnone, if_neg (fun hc => hc.1 rfl)]
    · by_cases hmax : y.address = -1
      · obtain ⟨e, he, hstop⟩ := hlast.falls (hmax ▸ hstart)
        refine outOf_stops _ _ (legacyInsns_stops (x := e.1) ?_ hstop rfl)
        rw [← h.body]
        exact mem_map.mpr ⟨e, he, rfl⟩
      · have hin : inLift insns y.address = true :=
          inLift_iff.mpr ⟨y, mem_of_getElem? hy, rfl⟩
        rw [hstart, getD_some, if_pos ⟨hmax, hin⟩]
  · have hcut := takeWhile_before hsplit hz hpre
    have hmem : z ∈ (blockInsns cfg insns k).map Prod.fst := by
      rw [h.body, hsplit]
      exact mem_append_right _ (mem_singleton.mpr rfl)
    obtain ⟨e, he, rfl⟩ := mem_map.mp hmem
    obtain ⟨hout, hsnaps⟩ := legacyInsns_quiet snapshot (startWalk s) pre
      (hlast.calls e he hz) (hlast.jumps e he hz)
    rw [hcut, hsplit, hnone]
    refine ⟨?_, hsnaps⟩
    rw [if_neg (fun hc => hc.1 rfl)]
    unfold outOf
    dsimp only
    rw [ite_self, ite_self, hout]

end Walks

/-- The blocks the edges out of a block go to. -/
def succsOf (cfg : Cfg) (k : ℕ) : List ℕ :=
  slice cfg.succs (cfg.succAt.getD k 0) (cfg.succAt.getD (k + 1) 0)

section Edges

variable {insns : List LiftedInstruction} {external : List U64} {inBody : U64 → Bool} {cfg : Cfg}
  (hinc : (insns.map LiftedInstruction.address).Pairwise (· < ·)) (hne : insns ≠ [])
  (hcfg : Cfg.build insns external inBody = cfg)
include hinc hne hcfg

variable (inBody) in
omit hcfg in
theorem succsOf_build {k : ℕ} (hk : k < (startsOf insns external).length) :
    succsOf (Cfg.build insns external inBody) k =
      (((blockInsns (Cfg.build insns external inBody) insns k).flatMap fun e => jumpTargets e.1).map
        (binarySearch (Cfg.build insns external inBody).startAddr)).filterMap id ++
      if !(LiftShape.of insns).stops
          (boundary (startsOf insns external) insns.length (k + 1) - 1) &&
        decide (k + 1 < (startsOf insns external).length) then [k + 1] else [] := by
  obtain ⟨h0, -⟩ := boundary_zero external hinc hne
  have hlt : ∀ x ∈ startsOf insns external, x < insns.length := fun x hx => startsOf_lt hx
  have hsorted := startsOf_sorted insns external
  rw [← (build_fits external inBody hinc hne).jumps k (by rwa [build_startIdx inBody hinc hne]),
    blockJumps_build hinc hne hk]
  unfold succsOf
  rw [build_eq hinc hne]
  exact blockEdges_succsOf hsorted hlt h0 hk

omit hne hcfg hinc in
theorem stops_eq (hi : insns[i]? = some x) : (LiftShape.of insns).stops i = x.ops.any isStop := by
  rw [← hasBit_of_stops]
  unfold LiftShape.stops hasBit
  have hflag : (LiftShape.of insns).flag i = (InsnShape.of x).flags := by
    change ((insns.map fun insn => (InsnShape.of insn).flags).getD i 0) = _
    rw [getD_eq_getElem?_getD, getElem?_map, hi]
    rfl
  rw [hflag]

theorem mem_succsOf {k k' : ℕ} (hk : k < cfg.startIdx.length) : k' ∈ succsOf cfg k ↔
      (∃ x ∈ (blockInsns cfg insns k).map Prod.fst, ∃ t ∈ jumpTargets x,
        binarySearch cfg.startAddr t = some k') ∨
      (k' = k + 1 ∧ k + 1 < cfg.startIdx.length ∧
        ∀ x ∈ (blockInsns cfg insns k).map Prod.fst, x.ops.any isStop = false) := by
  have hk' : k < (startsOf insns external).length := by
    rwa [← hcfg, build_startIdx inBody hinc hne] at hk
  have hS := spans_build inBody hinc hne hk'
  have hsuccs := succsOf_build inBody hinc hne hk'
  generalize boundary (startsOf insns external) insns.length k = lo at hS hsuccs
  generalize boundary (startsOf insns external) insns.length (k + 1) = hi at hS hsuccs
  rw [← build_startIdx inBody hinc hne, hcfg] at hsuccs
  rw [hcfg] at hS
  have hlast : hi - 1 < insns.length := by
    have := hS.lt
    have := hS.le
    omega
  have hget := getElem?_eq_getElem hlast
  have hfalls : (LiftShape.of insns).stops (hi - 1) = false ↔
      ∀ x ∈ (blockInsns cfg insns k).map Prod.fst, x.ops.any isStop = false := by
    rw [stops_eq hget]
    constructor
    · intro hnone x hx
      obtain ⟨j, hlo, hhi, hj⟩ := hS.mem_iff.mp hx
      by_cases hjl : j + 1 < hi
      · exact no_stop_of_no_end (hS.inner_end hinc hne hcfg hlo hjl hj)
      · obtain rfl : j = hi - 1 := by omega
        rwa [some.inj (hj.symm.trans hget)]
    · refine fun hall => hall _ (hS.mem_iff.mpr ⟨hi - 1, ?_, ?_, hget⟩)
      · have := hS.lt
        omega
      · have := hS.lt
        omega
  rw [hsuccs, mem_append, mem_filterMap]
  refine or_congr ?_ ?_
  · constructor
    · rintro ⟨j, hj, hid⟩
      obtain rfl : j = some k' := hid
      obtain ⟨t, ht, hsearch⟩ := mem_map.mp hj
      obtain ⟨e, he, hmem⟩ := mem_flatMap.mp ht
      exact ⟨e.1, mem_map.mpr ⟨e, he, rfl⟩, t, hmem, hsearch⟩
    · rintro ⟨x, hx, t, ht, hsearch⟩
      obtain ⟨e, he, rfl⟩ := mem_map.mp hx
      exact ⟨some k', mem_map.mpr ⟨t, mem_flatMap.mpr ⟨e, he, ht⟩, hsearch⟩, rfl⟩
  · rw [← hfalls]
    cases (LiftShape.of insns).stops (hi - 1) <;> by_cases hnext : k + 1 < cfg.startIdx.length <;>
      simp [hnext]

omit hinc hne hcfg in
theorem untilStop_of_inner {l : List LiftedInstruction}
    (h : ∀ j x, j + 1 < l.length → l[j]? = some x → x.ops.any isStop = false) :
    untilStop l = l := by
  induction l with
  | nil => rfl
  | cons x l ih =>
    unfold untilStop
    cases l with
    | nil => split <;> rfl
    | cons y l =>
      have hx := h 0 x (by simp) rfl
      rw [hx, if_neg Bool.false_ne_true, ih fun j z hj hz => h (j + 1) z (by simpa using hj) hz]

theorem Spans.untilStop_eq {k lo hi m : ℕ} (hS : Spans cfg insns k lo hi) (hm : m ≤ hi) :
    untilStop (slice insns lo m) = slice insns lo m := by
  refine untilStop_of_inner fun j x hj hx => ?_
  have hlen : (slice insns lo m).length ≤ m - lo := by
    unfold slice
    rw [length_drop, length_take]
    omega
  unfold slice at hx
  rw [getElem?_drop, getElem?_take] at hx
  split at hx
  · exact no_stop_of_no_end (hS.inner_end hinc hne hcfg (Nat.le_add_right lo j) (by omega) hx)
  · cases hx

theorem Spans.legacyWalk_eq {k lo hi : ℕ} (hS : Spans cfg insns k lo hi)
    (hk : k < cfg.startIdx.length) :
    legacyWalk insns cfg.startAddr (addrOf cfg k) =
      (slice insns lo hi).takeWhile fun x => x.address ≠ -1 := by
  have hF := fits_build hinc hne hcfg
  unfold legacyWalk
  rw [hS.legacyBody_eq hinc hF hk]
  rcases hS.last_address hinc with hbelow | ⟨pre, z, hsplit, hz, hpre, -⟩
  · rw [takeWhile_eq_self_iff.mpr fun x hx => decide_eq_true (hbelow x hx)]
    exact hS.untilStop_eq hinc hne hcfg (le_refl _)
  · have hcut := takeWhile_before hsplit hz hpre
    have hlo : pre = slice insns lo (hi - 1) := by
      have hlen : pre.length = hi - 1 - lo := by
        have := congrArg List.length hsplit
        have hle := hS.le
        unfold slice at this
        rw [length_drop, length_take, length_append, length_singleton] at this
        omega
      have htake := congrArg (List.take pre.length) hsplit
      rw [take_left] at htake
      rw [← htake, hlen]
      unfold slice
      rw [drop_take, drop_take, take_take]
      have hlt := hS.lt
      congr 1
      omega
    rw [hcut, hlo]
    exact hS.untilStop_eq hinc hne hcfg (Nat.sub_le _ _)

theorem lt_of_mem_succsOf {k k' : ℕ} (hk : k < cfg.startIdx.length) (hmem : k' ∈ succsOf cfg k) :
    k' < cfg.startIdx.length := by
  rcases (mem_succsOf hinc hne hcfg hk).mp hmem with ⟨x, -, t, -, hsearch⟩ | ⟨rfl, hnext, -⟩
  · exact ((fits_build hinc hne hcfg).addr_of_search hsearch).1
  · exact hnext

theorem mem_legacySuccs_of_mem {k k' : ℕ} (hk : k < cfg.startIdx.length)
    (hlast : KeepsLast cfg insns k) (hmem : k' ∈ succsOf cfg k) :
    k' < cfg.startIdx.length ∧ addrOf cfg k' ∈ legacySuccs insns cfg.startAddr (addrOf cfg k) := by
  have hF := fits_build hinc hne hcfg
  obtain ⟨lo, hi, hS⟩ := exists_spans hinc hne hcfg hk
  rw [legacySuccs_eq (hF.addr_mem hk), hS.legacyWalk_eq hinc hne hcfg hk]
  rcases (mem_succsOf hinc hne hcfg hk).mp hmem with ⟨x, hx, t, ht, hsearch⟩ | ⟨rfl, hnext, hall⟩
  · obtain ⟨hk', haddr, hstart⟩ := hF.addr_of_search hsearch
    refine ⟨hk', mem_append_left _ (mem_flatMap.mpr ⟨x, ?_, ?_⟩)⟩
    · obtain ⟨e, he, rfl⟩ := mem_map.mp hx
      have hne' : e.1.address ≠ -1 := fun hmax => hlast.jumps e he hmax t ht hstart
      rw [hS.body] at hx
      rcases hS.last_address hinc with hbelow | ⟨pre, z, hsplit, hz, hpre, -⟩
      · rwa [takeWhile_eq_self_iff.mpr fun x hx => decide_eq_true (hbelow x hx)]
      · rw [hsplit, takeWhile_append_of_pos fun x hx => decide_eq_true (hpre x hx)]
        rw [hsplit] at hx
        rcases mem_append.mp hx with hx | hx
        · exact mem_append_left _ hx
        · exact absurd (mem_singleton.mp hx ▸ hz) hne'
    · rw [haddr]
      exact mem_filter.mpr ⟨ht, decide_eq_true hstart⟩
  · refine ⟨hnext, mem_append_right _ ?_⟩
    rcases hS.next with ⟨-, hnone⟩ | ⟨y, hy, hstart⟩
    · rw [hF.getElem hnext] at hnone
      cases hnone
    · have hmax : y.address ≠ -1 := by
        intro hmax
        obtain ⟨e, he, hstop⟩ := hlast.falls (hmax ▸ hstart)
        rw [hall e.1 (mem_map.mpr ⟨e, he, rfl⟩)] at hstop
        cases hstop
      have haddr : addrOf cfg (k + 1) = y.address :=
        some.inj ((hF.getElem hnext).symm.trans hstart)
      have hend : blockEnd cfg.startAddr (addrOf cfg k) = y.address := by
        rw [blockEnd_eq hF hk, hstart, getD_some]
      have hin : inLift insns y.address = true := inLift_iff.mpr ⟨y, mem_of_getElem? hy, rfl⟩
      have hnonstop : ((slice insns lo hi).takeWhile fun x => x.address ≠ -1).all
          (fun x => !x.ops.any isStop) = true := by
        refine all_eq_true.mpr fun x hx => ?_
        rw [hall x (hS.body ▸ (takeWhile_subset _ hx))]
        rfl
      rw [hnonstop, hend, hin, haddr]
      exact mem_singleton.mpr rfl

theorem mem_of_mem_legacySuccs {k k' : ℕ} (hk : k < cfg.startIdx.length)
    (hk' : k' < cfg.startIdx.length)
    (hmem : addrOf cfg k' ∈ legacySuccs insns cfg.startAddr (addrOf cfg k)) :
    k' ∈ succsOf cfg k ∨ k' = k := by
  have hF := fits_build hinc hne hcfg
  obtain ⟨lo, hi, hS⟩ := exists_spans hinc hne hcfg hk
  rw [legacySuccs_eq (hF.addr_mem hk), hS.legacyWalk_eq hinc hne hcfg hk] at hmem
  rw [mem_succsOf hinc hne hcfg hk, hS.body]
  rcases mem_append.mp hmem with hjump | hfall
  · obtain ⟨x, hx, hfilter⟩ := mem_flatMap.mp hjump
    refine .inl (.inl ⟨x, takeWhile_subset _ hx, _, (mem_filter.mp hfilter).1, ?_⟩)
    exact hF.search hk'
  · split at hfall
    · next hcond =>
      rw [Bool.and_eq_true, all_eq_true] at hcond
      have haddr := mem_singleton.mp hfall
      rw [blockEnd_eq hF hk] at haddr
      rcases hS.next with ⟨-, hnone⟩ | ⟨y, hy, hstart⟩
      · right
        have hlastBlock : ¬ k + 1 < cfg.startIdx.length := fun hlt => by
          rw [hF.getElem hlt] at hnone
          cases hnone
        by_contra hkk
        have hlt := hF.addr_lt hk (show k' < k by omega)
        rw [haddr, hnone, getD_none] at hlt
        exact absurd hlt (not_lt.mpr (le_last _))
      · left
        right
        rw [hstart, getD_some] at haddr
        have hnext : k + 1 < cfg.startIdx.length := by
          rw [← hF.length]
          exact (List.getElem?_eq_some_iff.mp hstart).1
        have hnext' : addrOf cfg (k + 1) = y.address :=
          some.inj ((hF.getElem hnext).symm.trans hstart)
        refine ⟨(hF.addr_inj hk' hnext).mp (haddr.trans hnext'.symm), hnext, fun x hx => ?_⟩
        rcases hS.last_address hinc with hbelow | ⟨pre, z, -, -, -, hnone⟩
        · rw [takeWhile_eq_self_iff.mpr fun x hx => decide_eq_true (hbelow x hx)] at hcond
          simpa using hcond.1 x hx
        · rw [hstart] at hnone
          cases hnone
    · cases hfall

end Edges

/-- A block that edges lead to from one the flow starts at. -/
def EntersBlock (cfg : Cfg) (k : ℕ) : Prop :=
  ∃ r ∈ 0 :: cfg.unknownBlocks, Relation.ReflTransGen (fun a b => b ∈ succsOf cfg a) r k

def FlowKeepsLast (cfg : Cfg) (insns : List LiftedInstruction) : Prop :=
  ∀ k, EntersBlock cfg k → KeepsLast cfg insns k

section Entered

variable {insns : List LiftedInstruction} {external : List U64} {inBody : U64 → Bool} {cfg : Cfg}
  {first : LiftedInstruction} (hinc : (insns.map LiftedInstruction.address).Pairwise (· < ·))
  (hfirst : insns.head? = some first) (hcfg : Cfg.build insns external inBody = cfg)
include hinc hfirst hcfg

omit hinc hcfg in
theorem ne_nil_of_first : insns ≠ [] := by
  rintro rfl
  cases hfirst

theorem addrOf_zero : addrOf cfg 0 = first.address := by
  have hne := ne_nil_of_first hfirst
  have hF := fits_build hinc hne hcfg
  subst hcfg
  obtain ⟨h0, hpos⟩ := boundary_zero external hinc hne
  obtain ⟨x, hx, haddr⟩ := (spans_build inBody hinc hne hpos).first
  rw [h0, ← head?_eq_getElem?, hfirst] at hx
  rw [← haddr, some.inj hx]

theorem entersBlock_lt {k : ℕ} (h : EntersBlock cfg k) : k < cfg.startIdx.length := by
  have hne := ne_nil_of_first hfirst
  have hF := fits_build hinc hne hcfg
  obtain ⟨r, hr, hpath⟩ := h
  induction hpath with
  | refl => exact hF.root_lt r hr
  | tail _ hstep ih => exact lt_of_mem_succsOf hinc hne hcfg ih hstep

theorem reached_iff (hkeeps : FlowKeepsLast cfg insns) {k : ℕ} (hk : k < cfg.startIdx.length) :
    addrOf cfg k ∈ legacyReached insns cfg.startAddr first.address ↔
      Relation.ReflTransGen (fun a b => b ∈ succsOf cfg a) 0 k := by
  have hne := ne_nil_of_first hfirst
  have hF := fits_build hinc hne hcfg
  have hzero := addrOf_zero hinc hfirst hcfg
  unfold legacyReached
  rw [mem_flood]
  constructor
  · intro h
    have hall : ∀ a, Relation.ReflTransGen (fun a s => s ∈ legacySuccs insns cfg.startAddr a ∧
        s ∈ insns.map LiftedInstruction.address) first.address a → a ∈ cfg.startAddr →
          ∃ k < cfg.startIdx.length, addrOf cfg k = a ∧
            Relation.ReflTransGen (fun a b => b ∈ succsOf cfg a) 0 k := by
      intro a ha
      induction ha with
      | refl => exact fun _ => ⟨0, hF.nonempty, hzero, .refl⟩
      | @tail b c _ hstep ih =>
        intro hc
        have hb : b ∈ cfg.startAddr := by
          by_contra hb
          have hnone := hstep.1
          unfold legacySuccs at hnone
          rw [if_neg hb] at hnone
          cases hnone
        obtain ⟨j, hj, rfl, hpath⟩ := ih hb
        obtain ⟨j', hj', rfl⟩ := hF.exists_of_mem hc
        refine ⟨j', hj', rfl, ?_⟩
        rcases mem_of_mem_legacySuccs hinc hne hcfg hj hj' hstep.1 with hsucc | rfl
        · exact hpath.tail hsucc
        · exact hpath
    obtain ⟨j, hj, haddr, hpath⟩ := hall _ h (hF.addr_mem hk)
    rwa [(hF.addr_inj hj hk).mp haddr] at hpath
  · intro h
    clear hk
    induction h with
    | refl =>
      rw [hzero]
    | @tail j j' hpath hstep ih =>
      have henters : EntersBlock cfg j := ⟨0, mem_cons_self, hpath⟩
      have hj := entersBlock_lt hinc hfirst hcfg henters
      obtain ⟨hj', hmem⟩ := mem_legacySuccs_of_mem hinc hne hcfg hj (hkeeps j henters) hstep
      refine ih.tail ⟨hmem, ?_⟩
      obtain ⟨lo, hi, hS⟩ := exists_spans hinc hne hcfg hj'
      obtain ⟨x, hx, haddr⟩ := hS.first
      exact mem_map.mpr ⟨x, mem_of_getElem? hx, haddr⟩

theorem unknownEntry_iff {k : ℕ} (hk : k < cfg.startIdx.length) :
    cfg.unknownEntry.getD k false = true ↔ k ≠ 0 ∧ (addrOf cfg k ∈ external ∨
        (¬ Relation.ReflTransGen (fun a b => b ∈ succsOf cfg a) 0 k ∧
          inBody (addrOf cfg k) = true)) := by
  have hne := ne_nil_of_first hfirst
  have hpos := (fits_build hinc hne hcfg).nonempty
  have hreach : k ∈ flood (range cfg.startIdx.length) (succsOf cfg) [0] [0] ↔
      Relation.ReflTransGen (fun a b => b ∈ succsOf cfg a) 0 k := by
    rw [mem_flood]
    constructor
    · exact fun h => h.lift id fun _ _ hstep => hstep.1
    · intro h
      have hin : ∀ b, Relation.ReflTransGen (fun a b => b ∈ succsOf cfg a) 0 b →
          b < cfg.startIdx.length ∧ Relation.ReflTransGen
            (fun a s => s ∈ succsOf cfg a ∧ s ∈ range cfg.startIdx.length) 0 b := by
        intro b hb
        induction hb with
        | refl => exact ⟨hpos, .refl⟩
        | tail _ hstep ih =>
          have hb' := lt_of_mem_succsOf hinc hne hcfg ih.1 hstep
          exact ⟨hb', ih.2.tail ⟨hstep, mem_range.mpr hb'⟩⟩
      exact (hin k h).2
  rw [← hreach]
  subst hcfg
  rw [build_startIdx inBody hinc hne] at hk
  rw [build_eq hinc hne]
  change ((range (startsOf insns external).length).map _).getD k false = true ↔ _
  rw [getD_eq_getElem?_getD, getElem?_map, getElem?_range hk, map_some,
    getD_some]
  simp only [Bool.and_eq_true, Bool.or_eq_true, decide_eq_true_eq]
  rfl

theorem legacyUnknown_eq (hkeeps : FlowKeepsLast cfg insns) :
    legacyUnknown insns external inBody first.address = cfg.unknownBlocks.map (addrOf cfg) := by
  have hne := ne_nil_of_first hfirst
  have hF := fits_build hinc hne hcfg
  have hstarts : legacyStarts insns external first.address = cfg.startAddr :=
    hcfg ▸ legacyStarts_eq hinc hfirst
  have hlt : ∀ b ∈ cfg.unknownBlocks, b < cfg.startIdx.length := fun b hb =>
    entersBlock_lt hinc hfirst hcfg ⟨b, mem_cons_of_mem _ hb, .refl⟩
  have hsorted : (cfg.unknownBlocks.map (addrOf cfg)).Pairwise (· < ·) := by
    rw [pairwise_map, hF.unknown]
    have hup : (unknownBlocksOf cfg.unknownEntry).Pairwise (· < ·) := by
      have hsub : ((cfg.unknownEntry.zipIdx.filter Prod.fst).map Prod.snd).Sublist
          (cfg.unknownEntry.zipIdx.map Prod.snd) := filter_sublist.map _
      refine List.Pairwise.sublist hsub ?_
      rw [zipIdx_map_snd]
      exact pairwise_lt_range'
    refine List.Pairwise.imp_of_mem (fun _ hb h => ?_) hup
    exact hF.addr_lt (hlt _ (hF.unknown ▸ hb)) h
  have hsub : (legacyUnknown insns external inBody first.address).Pairwise (· < ·) := by
    unfold legacyUnknown
    dsimp only
    rw [hstarts]
    exact hF.sorted.filter _
  have hzero := addrOf_zero hinc hfirst hcfg
  have hmem : ∀ a, a ∈ legacyUnknown insns external inBody first.address ↔
      a ∈ cfg.unknownBlocks.map (addrOf cfg) := by
    intro a
    have hcond : ∀ k < cfg.startIdx.length,
        (addrOf cfg k ∈ legacyUnknown insns external inBody first.address ↔
          k ∈ cfg.unknownBlocks) := by
      intro k hk
      rw [hF.unknown, mem_unknownBlocksOf, unknownEntry_iff hinc hfirst hcfg hk]
      unfold legacyUnknown
      dsimp only
      rw [mem_filter, hstarts, ← hzero]
      simp only [Bool.and_eq_true, Bool.or_eq_true, decide_eq_true_eq, hF.addr_mem hk, true_and]
      rw [hzero, reached_iff hinc hfirst hcfg hkeeps hk, ← hzero, ne_eq, ne_eq,
        hF.addr_inj hk hF.nonempty]
    constructor
    · intro ha
      have hstart : a ∈ cfg.startAddr := by
        have := (mem_filter.mp ha).1
        rwa [hstarts] at this
      obtain ⟨k, hk, rfl⟩ := hF.exists_of_mem hstart
      exact mem_map.mpr ⟨k, (hcond k hk).mp ha, rfl⟩
    · intro ha
      obtain ⟨k, hk, rfl⟩ := mem_map.mp ha
      exact (hcond k (hlt k hk)).mpr hk
  exact eq_of_sorted hsub hsorted hmem

theorem flows_agree {S T : Type} [FlowState S] (hkeeps : FlowKeepsLast cfg insns)
    (snapshot : S → T) :
    Agree (flowOf (indexBlocks cfg insns) snapshot) (flowOf (legacyBlocks insns cfg.startAddr
        (· ∈ legacyUnknown insns external inBody first.address) first.address) snapshot)
      {a | ∃ k, EntersBlock cfg k ∧ addrOf cfg k = a} := by
  have hne := ne_nil_of_first hfirst
  have hF := fits_build hinc hne hcfg
  have hlt := fun {k : ℕ} => entersBlock_lt (k := k) hinc hfirst hcfg
  have hzero := addrOf_zero hinc hfirst hcfg
  refine ⟨rfl, rfl, rfl, ?_, ?_, ?_, ?_⟩
  · rintro _ ⟨k, hk, rfl⟩
    change ((binarySearch cfg.startAddr (addrOf cfg k)).map _).getD false =
      (decide (addrOf cfg k = first.address) ||
        decide (addrOf cfg k ∈ legacyUnknown insns external inBody first.address))
    rw [hF.search (hlt hk), map_some, getD_some, ← hzero, Bool.decide_or]
    congr 1
    · exact decide_eq_decide.mpr (hF.addr_inj (hlt hk) hF.nonempty).symm
    · refine decide_eq_decide.mpr ?_
      rw [hzero, legacyUnknown_eq hinc hfirst hcfg hkeeps, ← mem_unknownBlocksOf, ← hF.unknown]
      constructor
      · exact fun hmem => mem_map.mpr ⟨k, hmem, rfl⟩
      · intro hmem
        obtain ⟨j, hj, heq⟩ := mem_map.mp hmem
        have hj' : j < cfg.startIdx.length := hlt ⟨j, mem_cons_of_mem _ hj, .refl⟩
        rwa [← (hF.addr_inj hj' (hlt hk)).mp heq]
  · rintro _ ⟨k, hk, rfl⟩ s
    obtain ⟨lo, hi, hS⟩ := exists_spans hinc hne hcfg (hlt hk)
    exact (walk_agrees hinc hS hF (hlt hk) (hkeeps k hk) s).1
  · rintro _ ⟨k, hk, rfl⟩ s
    obtain ⟨lo, hi, hS⟩ := exists_spans hinc hne hcfg (hlt hk)
    exact (walk_agrees hinc hS hF (hlt hk) (hkeeps k hk) s).2
  · rintro _ ⟨k, hk, rfl⟩ s e he
    obtain ⟨lo, hi, hS⟩ := exists_spans hinc hne hcfg (hlt hk)
    have hstep : ∀ k', k' ∈ succsOf cfg k → EntersBlock cfg k' := by
      intro k' hk'
      obtain ⟨r, hr, hpath⟩ := hk
      exact ⟨r, hr, hpath.tail hk'⟩
    have htarget : ∀ t, ∀ x ∈ slice insns lo hi, t ∈ jumpTargets x → t ∈ cfg.startAddr →
        ∃ k, EntersBlock cfg k ∧ addrOf cfg k = t := by
      intro t x hx ht hstart
      obtain ⟨j, hj, rfl⟩ := hF.exists_of_mem hstart
      refine ⟨j, hstep j ((mem_succsOf hinc hne hcfg (hlt hk)).mpr (.inl ⟨x, ?_, _, ht, ?_⟩)), rfl⟩
      · rwa [hS.body]
      · exact hF.search hj
    dsimp only [flowOf, Blocks.walk, indexBlocks_starts] at he
    rw [indexBody_eq hS hF (hlt hk), indexNext_eq hF (hlt hk)] at he
    have hout := legacyInsns_targets cfg.startAddr snapshot (startWalk s)
      (P := fun t => ∃ k, EntersBlock cfg k ∧ addrOf cfg k = t)
      (slice insns lo hi) (fun _ h => absurd h not_mem_nil)
      fun x hx t ht hstart => htarget t x hx ht hstart
    generalize hw : legacyInsns cfg.startAddr snapshot (slice insns lo hi) (startWalk s) = w
      at he hout
    unfold outOf at he
    split at he
    · next hfalls =>
      split at he
      · next dest hnext =>
        have hkey : e.1 ∈ (addEdgeAt w.out dest w.st).map Prod.fst :=
          mem_map.mpr ⟨e, he, rfl⟩
        rcases OrderedMap.mem_keys_insertEntry hkey with hk' | hk'
        · have hlen : k + 1 < cfg.startIdx.length := by
            rw [← hF.length]
            exact (List.getElem?_eq_some_iff.mp hnext).1
          refine ⟨k + 1, hstep _ ((mem_succsOf hinc hne hcfg (hlt hk)).mpr
            (.inr ⟨rfl, hlen, fun x hx => ?_⟩)), ?_⟩
          · by_contra hstop
            rw [← hw, legacyInsns_stops (hS.body ▸ hx) (by simpa using hstop) rfl] at hfalls
            cases hfalls
          · rw [hk']
            exact some.inj ((hF.getElem hlen).symm.trans hnext)
        · obtain ⟨e', he', heq⟩ := mem_map.mp hk'
          exact heq ▸ hout e' he'
      · exact hout e he
    · exact hout e he

omit hinc hfirst hcfg in
theorem option_rel_some {α β : Type} {R : α → β → Prop} {o : Option α} {b : β}
    (h : Option.Rel R o (some b)) : ∃ a, o = some a ∧ R a b := by
  cases h with
  | some h => exact ⟨_, rfl, h⟩

omit hinc hfirst hcfg in
theorem option_rel_none {α β : Type} {R : α → β → Prop} {o : Option α}
    (h : Option.Rel R o (none : Option β)) : o = none := by
  cases h with
  | none => rfl

theorem propagateCfg_eq_legacy {S T : Type} [FlowState S] [DecidableEq S]
    (hkeeps : FlowKeepsLast cfg insns) (fuel : ℕ) (snapshot : S → T) :
    propagateCfg fuel cfg insns snapshot = propagateLegacy fuel insns external inBody snapshot := by
  have hne := ne_nil_of_first hfirst
  have hF := fits_build hinc hne hcfg
  have hlegacy : cfg.legacy = false := hcfg ▸ build_legacy external inBody hinc hne
  have hunknown := legacyUnknown_eq hinc hfirst hcfg hkeeps
  have hagree := flows_agree hinc hfirst hcfg hkeeps snapshot
  obtain ⟨unknown, hlegacyUnknown⟩ : ∃ unknown, legacyUnknown insns external inBody first.address =
    unknown := ⟨_, rfl⟩
  rw [hlegacyUnknown] at hunknown hagree
  have hstarts : legacyStarts insns external first.address = cfg.startAddr :=
    hcfg ▸ legacyStarts_eq hinc hfirst
  have hlifted : ∀ s ∈ cfg.startAddr, inLift insns s = true := by
    intro s hs
    obtain ⟨k, hk, rfl⟩ := hF.exists_of_mem hs
    obtain ⟨lo, hi, hS⟩ := exists_spans hinc hne hcfg hk
    obtain ⟨x, hx, haddr⟩ := hS.first
    exact inLift_iff.mpr ⟨x, mem_of_getElem? hx, haddr⟩
  have hroots : (0 :: cfg.unknownBlocks).map (addrOf cfg) = first.address :: unknown := by
    rw [map_cons, addrOf_zero hinc hfirst hcfg, hunknown]
  have hinit := initScratch_indexed (S := S) (T := T) hF
    (hcfg ▸ unknownEntry_zero external inBody hinc hne)
  have hindex := flowLoop_rel snapshot hF fuel hinit
  have hworklist : ∀ b ∈ (0 :: cfg.unknownBlocks).map (addrOf cfg), inLift insns b = true := by
    intro b hb
    obtain ⟨k, hk, rfl⟩ := mem_map.mp hb
    exact hlifted _ (hF.addr_mem (entersBlock_lt hinc hfirst hcfg ⟨k, hk, .refl⟩))
  have hnodup : ((0 :: cfg.unknownBlocks).map (addrOf cfg)).Nodup := by
    rw [show (0 :: cfg.unknownBlocks).map (addrOf cfg) =
      (initScratch cfg : FlowScratch S T).worklist.map (addrOf cfg) from hinit.queue]
    refine List.Nodup.map_on (fun x hx y hy heq => ?_) hinit.nodup
    exact (hF.addr_inj (hinit.lt x hx) (hinit.lt y hy)).mp heq
  rw [hroots] at hnodup hworklist hindex
  have hkeyed := legacyLoop_rel (· ∈ unknown) first.address snapshot hlifted fuel
    (initAt_keyed hnodup hworklist)
  have hqueue : ∀ b ∈ (Flow.init (first.address :: unknown) : Progress U64 S (U64 × T)).queue,
      b ∈ {a | ∃ k, EntersBlock cfg k ∧ addrOf cfg k = a} := by
    intro b hb
    change b ∈ first.address :: unknown at hb
    rw [← hroots] at hb
    obtain ⟨k, hk, rfl⟩ := mem_map.mp hb
    exact ⟨k, ⟨k, hk, .refl⟩, rfl⟩
  rw [← hagree.run fuel hqueue] at hkeyed
  obtain ⟨rest, hcons⟩ : ∃ rest, insns = first :: rest := by
    cases insns with
    | nil => cases hfirst
    | cons x rest => exact ⟨rest, by rw [some.inj hfirst]⟩
  have hleft : propagateCfg fuel cfg insns snapshot =
      (flowLoop cfg insns snapshot (fun _ => true) fuel (initScratch cfg)).map fun f =>
        ⟨f.snaps, cfg.startAddr.zip f.visits⟩ := by
    unfold propagateCfg propagateCfgWith
    rw [hlegacy, if_neg Bool.false_ne_true, if_neg (by have := hF.nonempty; omega)]
  have hright : propagateLegacy fuel insns external inBody snapshot =
      (legacyLoop insns cfg.startAddr (· ∈ unknown) first.address snapshot fuel
        (initAt S T (first.address :: unknown))).map
          fun f => ⟨f.snaps, cfg.startAddr.map fun b => (b, (f.visits.lookup b).getD 0)⟩ := by
    subst hcons
    rw [← hstarts, ← hlegacyUnknown]
    rfl
  rw [hleft, hright]
  cases hrun : (flowOf (indexBlocks cfg insns) snapshot).run fuel
      (Flow.init (first.address :: unknown)) with
  | none =>
    rw [hrun] at hindex hkeyed
    cases hi : flowLoop cfg insns snapshot (fun _ => true) fuel (initScratch cfg) with
    | some f =>
      rw [hi] at hindex
      cases hindex
    | none =>
      rw [option_rel_none hkeyed]
      rfl
  | some q =>
    rw [hrun] at hindex hkeyed
    obtain ⟨f, hf, hq⟩ := option_rel_some hindex
    obtain ⟨g, hg, hq'⟩ := option_rel_some hkeyed
    rw [hf, hg, map_some, map_some, ← hq.log, hq'.log]
    congr 2
    refine ext_getElem? fun k => ?_
    by_cases hk : k < cfg.startIdx.length
    · have hv : f.visits[k]? = some (f.visits.getD k 0) := by
        have hlen : k < f.visits.length := hq.visitsLength ▸ hk
        rw [getD_eq_getElem _ _ hlen, getElem?_eq_getElem hlen]
      rw [getElem?_map, hF.getElem hk, map_some, ← hq'.visits, hq.visits k hk]
      exact getElem?_zip_eq_some.mpr ⟨hF.getElem hk, hv⟩
    · rw [getElem?_eq_none (by rw [length_zip, hF.length]; omega), getElem?_eq_none]
      rw [length_map, hF.length]
      omega

end Entered

end BlockFlowAgree
