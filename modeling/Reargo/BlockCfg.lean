import Reargo.BlockIndexRuns
import Mathlib.Data.List.TakeWhile

/-!
# The blocks of an increasing lift

What the shapes say of the instructions, where blocks start, and the edges of each block.
The blocks of a lift whose addresses strictly increase tile it, so the walk by block number
keeps to them.
-/
namespace BlockCfg

open PcodeModel BlockShapes BlockFlow BlockPaths BlockIndexRuns List
open InsnShape (hasTarget hasTargets)
open Option (getD_some map_some)
open ControlFlow (LiftedInstruction)

section Shapes

def hasBit (flags m : Byte) : Bool := decide (flags &&& m ≠ 0)

theorem hasBit_or (f g m : Byte) : hasBit (f ||| g) m = (hasBit f m || hasBit g m) := by
  unfold hasBit
  rw [← Bool.decide_or]
  refine decide_eq_decide.mpr ?_
  rw [BitVec.and_or_distrib_right, ne_eq, ne_eq, ne_eq, ← not_and_or]
  exact not_congr BitVec.or_eq_zero_iff

theorem hasBit_clear {f c m : Byte} (h : hasBit c m = false) : hasBit (f &&& ~~~c) m = hasBit f m := by
  have hor : hasBit f m = (hasBit (f &&& ~~~c) m || hasBit (f &&& c) m) := by
    rw [← hasBit_or]
    congr 1
    rw [← BitVec.and_or_distrib_left, BitVec.not_or_self, BitVec.and_allOnes]
  have hfc : hasBit (f &&& c) m = false := by
    unfold hasBit at h ⊢
    rw [decide_eq_false_iff_not, ne_eq, not_not] at h ⊢
    rw [BitVec.and_assoc, h]
    simp
  rw [hor, hfc, Bool.or_false]

theorem hasBit_addJump (s : InsnShape) (op : PcodeOp) (flags m : Byte)
    (hm : hasBit hasTarget m = false ∧ hasBit hasTargets m = false) :
    hasBit (InsnShape.addJump s op flags).flags m = (hasBit s.flags m || hasBit flags m) := by
  unfold InsnShape.addJump
  dsimp only
  rw [hasBit_or]
  congr 1
  split
  · split
    · rw [hasBit_or, hm.1, Bool.or_false]
    · rw [hasBit_or, hm.2, Bool.or_false, hasBit_clear hm.1]
  · rfl

theorem hasBit_add_ends (s : InsnShape) (op : PcodeOp) :
    hasBit (InsnShape.add s op).flags InsnShape.ends =
      (hasBit s.flags InsnShape.ends || isEnd op) := by
  unfold InsnShape.add isEnd isJump
  split <;> rename_i hop
  · rw [hasBit_or, hop]; rfl
  · rw [hasBit_or, hop]; rfl
  · rw [hasBit_addJump _ _ _ _ (by decide), hop]; rfl
  · rw [hasBit_addJump _ _ _ _ (by decide), hop]; rfl
  · rw [hasBit_or, hop]; rfl
  · rw [hasBit_or, hop]; rfl
  · simp_all

theorem hasBit_add_stops (s : InsnShape) (op : PcodeOp) :
    hasBit (InsnShape.add s op).flags InsnShape.stops =
      (hasBit s.flags InsnShape.stops || isStop op) := by
  unfold InsnShape.add isStop
  split <;> rename_i hop
  · rw [hasBit_or, hop]; rfl
  · rw [hasBit_or, hop]; rfl
  · rw [hasBit_addJump _ _ _ _ (by decide), hop]; rfl
  · rw [hasBit_addJump _ _ _ _ (by decide), hop]; rfl
  · rw [hasBit_or, hop]; rfl
  · rw [hasBit_or, hop]; rfl
  · simp_all

theorem hasBit_foldl_add {m : Byte} {q : PcodeOp → Bool}
    (hadd : ∀ s op, hasBit (InsnShape.add s op).flags m = (hasBit s.flags m || q op))
    (ops : List PcodeOp) (s : InsnShape) :
    hasBit (ops.foldl InsnShape.add s).flags m = (hasBit s.flags m || ops.any q) := by
  induction ops generalizing s with
  | nil => simp
  | cons op ops ih => rw [foldl_cons, ih, hadd, any_cons, Bool.or_assoc]

theorem hasBit_of_ends (insn : LiftedInstruction) :
    hasBit (InsnShape.of insn).flags InsnShape.ends = insn.ops.any isEnd :=
  (hasBit_foldl_add hasBit_add_ends insn.ops { address := insn.address, target := 0, flags := 0 }).trans
    (by rw [show hasBit 0 InsnShape.ends = false from by decide, Bool.false_or])

theorem hasBit_of_stops (insn : LiftedInstruction) :
    hasBit (InsnShape.of insn).flags InsnShape.stops = insn.ops.any isStop :=
  (hasBit_foldl_add hasBit_add_stops insn.ops { address := insn.address, target := 0, flags := 0 }).trans
    (by rw [show hasBit 0 InsnShape.stops = false from by decide, Bool.false_or])

theorem add_address (s : InsnShape) (op : PcodeOp) : (InsnShape.add s op).address = s.address := by
  unfold InsnShape.add
  split <;> try rfl
  all_goals
    unfold InsnShape.addJump
    dsimp only
    split
    · split <;> rfl
    · rfl

theorem of_address (insn : LiftedInstruction) : (InsnShape.of insn).address = insn.address :=
  List.foldlRecOn insn.ops InsnShape.add
    (motive := fun s => s.address = insn.address) rfl fun s hs op _ => (add_address s op).trans hs

def KeepsTargets (s : InsnShape) (ts : List U64) : Prop :=
  (ts = [] ∧ hasBit s.flags hasTarget = false ∧
    hasBit s.flags hasTargets = false) ∨
  (ts = [s.target] ∧ hasBit s.flags hasTarget = true ∧
    hasBit s.flags hasTargets = false) ∨
  (ts ≠ [] ∧ hasBit s.flags hasTarget = false ∧
    hasBit s.flags hasTargets = true)

variable {s : InsnShape} {ts : List U64}

theorem KeepsTargets.or (h : KeepsTargets s ts) {f : Byte}
    (hf : hasBit f hasTarget = false ∧ hasBit f hasTargets = false) :
    KeepsTargets { s with flags := s.flags ||| f } ts := by
  unfold KeepsTargets at h ⊢
  dsimp only
  rw [hasBit_or, hasBit_or, hf.1, hf.2, Bool.or_false, Bool.or_false]
  exact h

theorem hasBit_clear_self (f m : Byte) : hasBit (f &&& ~~~m) m = false := by
  unfold hasBit
  rw [decide_eq_false_iff_not, ne_eq, not_not, BitVec.and_assoc, BitVec.not_and_self]
  exact BitVec.and_zero

theorem KeepsTargets.addJump (h : KeepsTargets s ts) (op : PcodeOp) {f : Byte}
    (hf : hasBit f hasTarget = false ∧ hasBit f hasTargets = false) :
    KeepsTargets (InsnShape.addJump s op f) (ts ++ (InsnShape.branchTarget op).toList) := by
  unfold InsnShape.addJump
  cases InsnShape.branchTarget op with
  | none =>
    rw [Option.toList_none, append_nil]
    exact h.or hf
  | some t =>
    have hnone : (s.flags &&& (hasTarget ||| hasTargets) = 0) ↔
        hasBit s.flags hasTarget = false ∧
          hasBit s.flags hasTargets = false := by
      rw [BitVec.and_or_distrib_left]
      unfold hasBit
      rw [decide_eq_false_iff_not, decide_eq_false_iff_not, not_not, not_not]
      exact BitVec.or_eq_zero_iff
    dsimp only
    rw [Option.toList_some]
    by_cases hz : s.flags &&& (hasTarget ||| hasTargets) = 0
    · rw [if_pos hz]
      obtain ⟨h₁, h₂⟩ := hnone.mp hz
      rcases h with ⟨hts, -, -⟩ | ⟨-, hbit, -⟩ | ⟨-, -, hbit⟩
      · refine KeepsTargets.or (s := { s with flags := s.flags ||| hasTarget, target := t })
          (.inr (.inl ⟨by rw [hts]; rfl, ?_, ?_⟩)) hf
        · rw [hasBit_or, h₁]
          decide
        · rw [hasBit_or, h₂]
          decide
      · rw [h₁] at hbit
        cases hbit
      · rw [h₂] at hbit
        cases hbit
    · rw [if_neg hz]
      refine KeepsTargets.or (s := { s with
        flags := (s.flags &&& ~~~hasTarget) ||| hasTargets })
        (.inr (.inr ⟨?_, ?_, ?_⟩)) hf
      · exact append_ne_nil_of_right_ne_nil _ (cons_ne_nil _ _)
      · rw [hasBit_or, hasBit_clear_self]
        decide
      · rw [hasBit_or]
        have hset : hasBit hasTargets hasTargets = true := by decide
        rw [hset, Bool.or_true]

def opTargets (ops : List PcodeOp) : List U64 :=
  (ops.filter isJump).filterMap InsnShape.branchTarget

theorem opTargets_cons (op : PcodeOp) (ops : List PcodeOp) :
    opTargets (op :: ops) = (if isJump op then (InsnShape.branchTarget op).toList else []) ++
      opTargets ops := by
  unfold opTargets
  cases h : isJump op with
  | true =>
    rw [filter_cons_of_pos h, if_pos rfl, filterMap_cons]
    cases InsnShape.branchTarget op <;> rfl
  | false =>
    rw [filter_cons_of_neg (by rw [h]; exact Bool.false_ne_true), if_neg Bool.false_ne_true,
      nil_append]

theorem KeepsTargets.add (h : KeepsTargets s ts) (op : PcodeOp) :
    KeepsTargets (InsnShape.add s op)
      (ts ++ if isJump op then (InsnShape.branchTarget op).toList else []) := by
  have hplain : ∀ f : Byte,
      hasBit f hasTarget = false ∧ hasBit f hasTargets = false →
      isJump op = false → KeepsTargets { s with flags := s.flags ||| f }
        (ts ++ if isJump op then (InsnShape.branchTarget op).toList else []) := by
    intro f hf hjump
    rw [hjump, if_neg Bool.false_ne_true, append_nil]
    exact h.or hf
  unfold InsnShape.add
  split <;> rename_i hop
  · exact hplain _ (by decide) (by unfold isJump; rw [hop]; rfl)
  · exact hplain _ (by decide) (by unfold isJump; rw [hop]; rfl)
  · have hjump : isJump op = true := by unfold isJump; rw [hop]; rfl
    rw [hjump, if_pos rfl]
    exact h.addJump op (by decide)
  · have hjump : isJump op = true := by unfold isJump; rw [hop]; rfl
    rw [hjump, if_pos rfl]
    exact h.addJump op (by decide)
  · exact hplain _ (by decide) (by unfold isJump; rw [hop]; rfl)
  · exact hplain _ (by decide) (by unfold isJump; rw [hop]; rfl)
  · have hjump : isJump op = false := by
      unfold isJump
      simp_all
    rw [hjump, if_neg Bool.false_ne_true, append_nil]
    exact h

theorem KeepsTargets.foldl (ops : List PcodeOp)
    (h : KeepsTargets s ts) : KeepsTargets (ops.foldl InsnShape.add s) (ts ++ opTargets ops) := by
  induction ops generalizing s ts with
  | nil =>
    have hnil : opTargets [] = [] := rfl
    rw [hnil, append_nil]
    exact h
  | cons op ops ih =>
    rw [opTargets_cons, ← append_assoc, foldl_cons]
    exact ih (h.add op)

theorem pushBranches_eq (bs : List (ℕ × U64)) (i : ℕ) (insn : LiftedInstruction) :
    (if (InsnShape.of insn).flags ≠ 0 then pushBranches bs i (InsnShape.of insn) insn else bs) =
      bs ++ (jumpTargets insn).map fun t => (i, t) := by
  have hkeeps : KeepsTargets (InsnShape.of insn) (jumpTargets insn) :=
    KeepsTargets.foldl insn.ops (s := { address := insn.address, target := 0, flags := 0 })
      (.inl ⟨rfl, show hasBit 0 _ = false by decide, show hasBit 0 _ = false by decide⟩)
  have hbit : ∀ m : Byte, ((InsnShape.of insn).flags &&& m ≠ 0) =
      (hasBit (InsnShape.of insn).flags m = true) := by
    intro m
    unfold hasBit
    rw [decide_eq_true_eq]
  have hzero : ∀ m : Byte, hasBit (InsnShape.of insn).flags m = true →
      (InsnShape.of insn).flags ≠ 0 := by
    intro m hm hz
    rw [hz] at hm
    unfold hasBit at hm
    rw [decide_eq_true_eq] at hm
    exact hm BitVec.zero_and
  unfold pushBranches
  simp only [hbit]
  rcases hkeeps with ⟨hts, h₁, h₂⟩ | ⟨hts, h₁, -⟩ | ⟨-, h₁, h₂⟩
  · rw [h₁, h₂, hts]
    simp
  · rw [if_pos (hzero _ h₁), h₁, hts]
    simp
  · rw [if_pos (hzero _ h₂), h₁, h₂]
    simp

theorem branches_eq (insns : List LiftedInstruction) : (LiftShape.of insns).branches =
      insns.zipIdx.flatMap fun e => (jumpTargets e.1).map fun t => (e.2, t) := by
  have hfold : ∀ (l : List (LiftedInstruction × ℕ)) (bs : List (ℕ × U64)), l.foldl (fun bs e =>
        let s := InsnShape.of e.1
        if s.flags ≠ 0 then pushBranches bs e.2 s e.1 else bs) bs =
        bs ++ l.flatMap fun e => (jumpTargets e.1).map fun t => (e.2, t) := by
    intro l
    induction l with
    | nil => exact fun bs => (append_nil bs).symm
    | cons e l ih =>
      intro bs
      rw [foldl_cons, ih, flatMap_cons, ← append_assoc]
      dsimp only
      rw [pushBranches_eq]
  exact hfold insns.zipIdx []

end Shapes

variable {i : ℕ}

section Starts

variable {addrs : List U64}

theorem binarySearch_eq_some (h : addrs.Pairwise (· < ·)) {a : U64} :
    binarySearch addrs a = some i ↔ addrs[i]? = some a := by
  have hnodup : addrs.Nodup := h.imp fun h => ne_of_lt h
  unfold binarySearch
  constructor
  · intro hs
    split at hs
    · next hmem =>
      rw [← Option.some.inj hs]
      have hlt := idxOf_lt_length_iff.mpr hmem
      rw [List.getElem?_eq_getElem hlt, getElem_idxOf]
    · cases hs
  · intro hget
    obtain ⟨hlt, rfl⟩ := List.getElem?_eq_some_iff.mp hget
    rw [if_pos (getElem_mem hlt), List.Nodup.idxOf_getElem hnodup]

theorem setStart_length (m : List Bool) (i : Option ℕ) : (setStart m i).length = m.length := by
  cases i with
  | none => rfl
  | some i => exact length_set

theorem setStart_getD (m : List Bool) (i : Option ℕ) (k : ℕ) : (setStart m i).getD k false =
    (m.getD k false || (decide (i = some k) && decide (k < m.length))) := by
  cases i with
  | none => simp [setStart]
  | some i =>
    unfold setStart
    rw [getD_eq_getElem?_getD, getD_eq_getElem?_getD, getElem?_set]
    by_cases hik : i = k
    · subst hik
      by_cases hlt : i < m.length
      · simp [hlt]
      · simp [hlt]
    · simp [hik]

theorem foldl_setStart {α : Type} (g : α → Option ℕ) (l : List α) (m : List Bool) :
    (l.foldl (fun m a => setStart m (g a)) m).length = m.length ∧
      ∀ k, (l.foldl (fun m a => setStart m (g a)) m).getD k false =
        (m.getD k false || ((l.any fun a => decide (g a = some k)) && decide (k < m.length))) := by
  induction l generalizing m with
  | nil => exact ⟨rfl, fun k => by simp⟩
  | cons a l ih =>
    obtain ⟨hlen, hget⟩ := ih (setStart m (g a))
    rw [foldl_cons]
    refine ⟨hlen.trans (setStart_length m _), fun k => ?_⟩
    rw [hget, setStart_getD, setStart_length, any_cons, Bool.or_assoc, ← Bool.and_or_distrib_right]

/-- An instruction starts a block. -/
def IsStart (shape : LiftShape) (external : List U64) (i : ℕ) : Prop :=
  i = 0 ∨ (∃ a ∈ external, shape.addrs[i]? = some a) ∨
    (∃ t ∈ shape.branches, shape.addrs[i]? = some t.2) ∨
    ∃ j, i = j + 1 ∧ hasBit (shape.flag j) InsnShape.ends = true

theorem startFlags_iff {shape : LiftShape} (h : shape.addrs.Pairwise (· < ·))
    (hlen : shape.flags.length = shape.addrs.length) (external : List U64)
    (hi : i < shape.addrs.length) :
    (startFlags shape external).getD i false = true ↔ IsStart shape external i := by
  obtain ⟨hlen₁, hget₁⟩ := foldl_setStart (binarySearch shape.addrs) external
    ((replicate shape.addrs.length false).set 0 true)
  obtain ⟨hlen₂, hget₂⟩ := foldl_setStart (fun t : ℕ × U64 => binarySearch shape.addrs t.2)
    shape.branches (external.foldl (fun m a => setStart m (binarySearch shape.addrs a))
      ((replicate shape.addrs.length false).set 0 true))
  have hmarks : ∀ k < shape.addrs.length,
      ((shape.branches.foldl (fun m t => setStart m (binarySearch shape.addrs t.2))
        (external.foldl (fun m a => setStart m (binarySearch shape.addrs a))
          ((replicate shape.addrs.length false).set 0 true))).getD k false = true ↔
        k = 0 ∨ (∃ a ∈ external, shape.addrs[k]? = some a) ∨
          ∃ t ∈ shape.branches, shape.addrs[k]? = some t.2) := by
    intro k hk
    have hbase : ((replicate shape.addrs.length false).set 0 true).getD k false =
        decide (k = 0) := by
      rw [getD_eq_getElem?_getD, getElem?_set, getElem?_replicate]
      rcases Nat.eq_zero_or_pos k with rfl | hpos
      · simp [hk]
      · rw [if_neg (by omega), if_pos hk, getD_some, decide_eq_false (by omega)]
    rw [hget₂, hget₁, hbase, hlen₁, length_set, length_replicate, decide_eq_true hk,
      Bool.and_true, Bool.and_true, Bool.or_eq_true, Bool.or_eq_true, decide_eq_true_eq,
      any_eq_true, any_eq_true, or_assoc]
    simp only [decide_eq_true_eq, binarySearch_eq_some h]
  unfold startFlags IsStart
  dsimp only
  generalize hm : shape.branches.foldl (fun m t => setStart m (binarySearch shape.addrs t.2))
    (external.foldl (fun m a => setStart m (binarySearch shape.addrs a))
      ((replicate shape.addrs.length false).set 0 true)) = m at hmarks hlen₂
  have hmlen : m.length = shape.addrs.length := by
    rw [hlen₂, hlen₁, length_set, length_replicate]
  cases m with
  | nil =>
    rw [length_nil] at hmlen
    omega
  | cons first m =>
    rw [take_succ_cons, take_zero, tail_cons]
    cases i with
    | zero =>
      have h0 := hmarks 0 hi
      simpa using h0
    | succ j =>
      have hj := hmarks (j + 1) hi
      rw [getD_cons_succ] at hj
      have hjm : j < m.length := by
        rw [length_cons] at hmlen
        omega
      have hjf : j < shape.flags.length := by omega
      have hzip : ((m.zip shape.flags).map fun e => e.1 || decide (e.2 &&& InsnShape.ends ≠ 0))[j]? =
          some (m.getD j false || hasBit (shape.flag j) InsnShape.ends) := by
        have hpair : (m.zip shape.flags)[j]? = some (m[j], shape.flags[j]) :=
          getElem?_zip_eq_some.mpr ⟨getElem?_eq_getElem hjm, getElem?_eq_getElem hjf⟩
        rw [getElem?_map, hpair, map_some]
        unfold LiftShape.flag hasBit
        rw [getD_eq_getElem _ _ hjm, getD_eq_getElem _ _ hjf]
      rw [singleton_append, getD_cons_succ, getD_eq_getElem?_getD, hzip,
        getD_some, Bool.or_eq_true, hj]
      constructor
      · rintro ((h0 | he | ht) | hends)
        · exact .inl h0
        · exact .inr (.inl he)
        · exact .inr (.inr (.inl ht))
        · exact .inr (.inr (.inr ⟨j, rfl, hends⟩))
      · rintro (h0 | he | ht | ⟨j', hjj, hends⟩)
        · exact .inl (.inl h0)
        · exact .inl (.inr (.inl he))
        · exact .inl (.inr (.inr ht))
        · obtain rfl : j' = j := by omega
          exact .inr hends

end Starts

/-- Where block `b` starts; past the last block, where the lift ends. -/
def boundary (startIdx : List ℕ) (n b : ℕ) : ℕ := startIdx.getD b n

section Boundaries

variable {xs : List ℕ} {n b c i : ℕ}

theorem boundary_eq (hb : b < xs.length) : boundary xs n b = xs[b] := getD_eq_getElem _ _ hb

theorem boundary_end (hb : xs.length ≤ b) : boundary xs n b = n := getD_eq_default _ _ hb

theorem boundary_mem (hb : b < xs.length) : boundary xs n b ∈ xs := by
  rw [boundary_eq hb]
  exact getElem_mem hb

variable (hs : xs.Pairwise (· < ·)) (hlt : ∀ x ∈ xs, x < n)

include hlt

theorem boundary_le : boundary xs n b ≤ n := by
  rcases lt_or_ge b xs.length with hb | hb
  · exact (hlt _ (boundary_mem hb)).le
  · exact (boundary_end hb).le

include hs

theorem boundary_lt (hb : b < xs.length) : boundary xs n b < boundary xs n (b + 1) := by
  by_cases hb' : b + 1 < xs.length
  · rw [boundary_eq hb, boundary_eq hb']
    exact pairwise_iff_getElem.mp hs b (b + 1) hb hb' (Nat.lt_succ_self b)
  · rw [boundary_end (not_lt.mp hb')]
    exact hlt _ (boundary_mem hb)

theorem boundary_mono (hbc : b ≤ c) : boundary xs n b ≤ boundary xs n c := by
  induction c with
  | zero => rw [Nat.le_zero.mp hbc]
  | succ c ih =>
    rcases lt_or_ge b (c + 1) with h | h
    · refine (ih (by omega)).trans ?_
      by_cases hc : c < xs.length
      · exact (boundary_lt hs hlt hc).le
      · rw [boundary_end (n := n) (show xs.length ≤ c by omega), boundary_end (by omega)]
    · rw [show b = c + 1 by omega]

theorem notMem_between (hlo : boundary xs n b < i) (hhi : i < boundary xs n (b + 1)) : i ∉ xs := by
  intro hmem
  obtain ⟨c, hc, rfl⟩ := mem_iff_getElem.mp hmem
  rw [← boundary_eq (n := n) hc] at hlo hhi
  rcases lt_or_ge b c with h | h
  · exact absurd (boundary_mono hs hlt (show b + 1 ≤ c from h)) (not_le.mpr hhi)
  · exact absurd (boundary_mono hs hlt h) (not_le.mpr hlo)

end Boundaries

theorem slice_flatMap_range {α : Type} (g : ℕ → List α) {nb b : ℕ} (hb : b < nb) :
    slice ((List.range nb).flatMap g) ((List.range b).flatMap g).length
      ((List.range (b + 1)).flatMap g).length = g b := by
  obtain ⟨m, rfl⟩ : ∃ m, nb = b + 1 + m := ⟨nb - (b + 1), by omega⟩
  have hsplit : (range (b + 1 + m)).flatMap g =
      (range (b + 1)).flatMap g ++ ((range m).map (b + 1 + ·)).flatMap g := by
    rw [range_add, flatMap_append]
  have hlast : (range (b + 1)).flatMap g = (range b).flatMap g ++ g b := by
    rw [range_succ, flatMap_append, flatMap_singleton]
  unfold slice
  rw [hsplit, take_left, hlast, drop_left]

section Edges

variable {α : Type} {shape : LiftShape} {n : ℕ} {startIdx : List ℕ} {blockOf : α → Option ℕ}
  {targets : List (ℕ × α)}

def jumpsOf (n : ℕ) (startIdx : List ℕ) (blockOf : α → Option ℕ) (targets : List (ℕ × α)) (b : ℕ) :
    List (Option ℕ) :=
  ((targets.dropWhile fun t => t.1 < boundary startIdx n b).takeWhile
    fun t => t.1 < boundary startIdx n (b + 1)).map fun t => blockOf t.2

def succsAt (shape : LiftShape) (n : ℕ) (startIdx : List ℕ) (blockOf : α → Option ℕ)
    (targets : List (ℕ × α)) (b : ℕ) : List ℕ :=
  (jumpsOf n startIdx blockOf targets b).filterMap id ++
    if !shape.stops (boundary startIdx n (b + 1) - 1) && decide (b + 1 < startIdx.length) then
      [b + 1] else []

theorem dropWhile_dropWhile_of_imp {β : Type} {p q : β → Bool} (hpq : ∀ x, p x = true → q x = true)
    (l : List β) : (l.dropWhile p).dropWhile q = l.dropWhile q := by
  induction l with
  | nil => rfl
  | cons x l ih =>
    rw [dropWhile_cons]
    split
    · next hp => rw [ih, dropWhile_cons, if_pos (hpq x hp)]
    · rfl

variable (shape blockOf targets) in
theorem foldl_addBlock (hs : startIdx.Pairwise (· < ·)) (hlt : ∀ x ∈ startIdx, x < n) {k : ℕ}
    (hk : k ≤ startIdx.length) :
    (List.range k).foldl (addBlock shape n startIdx blockOf)
        { targets := targets.dropWhile fun t => t.1 < boundary startIdx n 0, succs := [],
          succAt := [], brBlock := [], brAt := [] } =
      { targets := targets.dropWhile fun t => t.1 < boundary startIdx n k
        succs := (range k).flatMap (succsAt shape n startIdx blockOf targets)
        succAt := (range k).map fun c =>
          ((range c).flatMap (succsAt shape n startIdx blockOf targets)).length
        brBlock := (range k).flatMap (jumpsOf n startIdx blockOf targets)
        brAt := (range k).map fun c =>
          ((range c).flatMap (jumpsOf n startIdx blockOf targets)).length } := by
  induction k with
  | zero => rfl
  | succ k ih =>
    have hk' : k < startIdx.length := hk
    have hstart : startIdx.getD k 0 = boundary startIdx n k := by
      unfold boundary
      rw [getD_eq_getElem _ _ hk', getD_eq_getElem _ _ hk']
    have hlast : lastOf startIdx n k = boundary startIdx n (k + 1) - 1 := rfl
    have hpos : 0 < boundary startIdx n (k + 1) :=
      lt_of_le_of_lt (Nat.zero_le _) (boundary_lt hs hlt hk')
    have hnone : (targets.dropWhile fun t => t.1 < boundary startIdx n k).takeWhile
        (fun t => t.1 < boundary startIdx n k) = [] := by
      rw [takeWhile_eq_nil_iff]
      intro hl
      have hnot := dropWhile_get_zero_not (fun t : ℕ × α => decide (t.1 < boundary startIdx n k))
        targets hl
      simpa using hnot
    have hdrop : (targets.dropWhile fun t => t.1 < boundary startIdx n k).dropWhile
        (fun t => t.1 < boundary startIdx n k) =
          targets.dropWhile fun t => t.1 < boundary startIdx n k :=
      dropWhile_dropWhile_of_imp (fun _ h => h) _
    have hle : (fun t : ℕ × α => decide (t.1 ≤ boundary startIdx n (k + 1) - 1)) =
        fun t => decide (t.1 < boundary startIdx n (k + 1)) := by
      funext t
      exact decide_eq_decide.mpr (by omega)
    have hnext : (targets.dropWhile fun t => t.1 < boundary startIdx n k).dropWhile
        (fun t => t.1 < boundary startIdx n (k + 1)) =
          targets.dropWhile fun t => t.1 < boundary startIdx n (k + 1) := by
      refine dropWhile_dropWhile_of_imp (fun t ht => ?_) targets
      rw [decide_eq_true_eq] at ht ⊢
      exact ht.trans (boundary_lt hs hlt hk')
    have hrange : ∀ {β : Type} (g : ℕ → List β),
        (range (k + 1)).flatMap g = (range k).flatMap g ++ g k := by
      intro β g
      rw [range_succ, flatMap_append, flatMap_singleton]
    rw [range_succ, foldl_append, ih hk'.le, foldl_cons, foldl_nil]
    unfold addBlock
    dsimp only
    rw [hstart, hlast, hnone, hdrop, hle, hnext, map_nil, append_nil]
    congr 1
    · rw [← range_succ, hrange]
      unfold succsAt jumpsOf
      rw [append_assoc]
    · rw [map_append]
      rfl
    · rw [← range_succ, hrange]
      rfl
    · rw [map_append]
      rfl

theorem blockEdges_eq (hs : startIdx.Pairwise (· < ·)) (hlt : ∀ x ∈ startIdx, x < n)
    (h0 : boundary startIdx n 0 = 0) :
    blockEdges shape n startIdx blockOf targets =
      { targets := targets.dropWhile fun t => t.1 < boundary startIdx n startIdx.length
        succs := (range startIdx.length).flatMap (succsAt shape n startIdx blockOf targets)
        succAt := (range (startIdx.length + 1)).map fun c =>
          ((range c).flatMap (succsAt shape n startIdx blockOf targets)).length
        brBlock := (range startIdx.length).flatMap (jumpsOf n startIdx blockOf targets)
        brAt := (range (startIdx.length + 1)).map fun c =>
          ((range c).flatMap (jumpsOf n startIdx blockOf targets)).length } := by
  have hall : targets = targets.dropWhile fun t => t.1 < boundary startIdx n 0 := by
    rw [h0]
    cases targets with
    | nil => rfl
    | cons t targets => simp
  have hfold := foldl_addBlock shape blockOf targets hs hlt (le_refl _)
  rw [← hall] at hfold
  unfold blockEdges
  dsimp only
  rw [hfold]
  dsimp only
  rw [range_succ, map_append, map_append]
  rfl

/-- Block `b`'s part of an array of blocks, cut at the recorded positions. -/
theorem slice_at (g : ℕ → List β) {nb b : ℕ} (hb : b < nb) : slice ((List.range nb).flatMap g)
      (((List.range (nb + 1)).map fun c => ((List.range c).flatMap g).length).getD b 0)
      (((List.range (nb + 1)).map fun c => ((List.range c).flatMap g).length).getD (b + 1) 0) =
        g b := by
  have hget : ∀ c, c < nb + 1 →
      ((range (nb + 1)).map fun c => ((range c).flatMap g).length).getD c 0 =
        ((range c).flatMap g).length := by
    intro c hc
    rw [getD_eq_getElem?_getD, getElem?_map, getElem?_range hc]
    rfl
  rw [hget b (by omega), hget (b + 1) (by omega)]
  exact slice_flatMap_range g hb

theorem blockEdges_succsOf (hs : startIdx.Pairwise (· < ·)) (hlt : ∀ x ∈ startIdx, x < n)
    (h0 : boundary startIdx n 0 = 0) {b : ℕ} (hb : b < startIdx.length) :
    (blockEdges shape n startIdx blockOf targets).succsOf b =
      succsAt shape n startIdx blockOf targets b := by
  rw [blockEdges_eq hs hlt h0]
  exact slice_at _ hb

end Edges

theorem take_append_slice_append_drop {β : Type} (l : List β) {x y : ℕ} (hxy : x ≤ y) :
    l = l.take x ++ (slice l x y ++ l.drop y) := by
  unfold slice
  rw [← append_assoc]
  conv_lhs => rw [← take_append_drop y l, ← take_append_drop x (l.take y)]
  rw [take_take, min_eq_left hxy]

section Built

variable {insns : List LiftedInstruction}

theorem branches_between {x y : ℕ} (hxy : x ≤ y) :
    (((LiftShape.of insns).branches.dropWhile fun t => t.1 < x).takeWhile fun t => t.1 < y) =
      (slice insns.zipIdx x y).flatMap fun e => (jumpTargets e.1).map fun t => (e.2, t) := by
  have hlow : ∀ t ∈ (insns.zipIdx.take x).flatMap fun e => (jumpTargets e.1).map fun t => (e.2, t),
      decide (t.1 < x) = true := by
    intro t ht
    obtain ⟨e, he, ht⟩ := mem_flatMap.mp ht
    obtain ⟨u, -, rfl⟩ := mem_map.mp ht
    rw [decide_eq_true_eq]
    obtain ⟨i, hi, hget⟩ := mem_take_iff_getElem.mp he
    have hei := getElem_zipIdx (l := insns) (j := 0) (i := i) (h := by omega)
    rw [hget] at hei
    have : e.2 = 0 + i := congrArg Prod.snd hei
    omega
  have hmid : ∀ t ∈ (slice insns.zipIdx x y).flatMap
      fun e => (jumpTargets e.1).map fun t => (e.2, t), x ≤ t.1 ∧ t.1 < y := by
    intro t ht
    obtain ⟨e, he, ht⟩ := mem_flatMap.mp ht
    obtain ⟨u, -, rfl⟩ := mem_map.mp ht
    obtain ⟨i, hget⟩ := mem_iff_getElem?.mp he
    unfold slice at hget
    rw [getElem?_drop, getElem?_take] at hget
    split at hget
    · rw [List.getElem?_zipIdx] at hget
      obtain ⟨z, -, rfl⟩ := Option.map_eq_some_iff.mp hget
      dsimp only
      omega
    · cases hget
  have hhigh : ∀ t ∈ (insns.zipIdx.drop y).flatMap fun e => (jumpTargets e.1).map fun t => (e.2, t),
      y ≤ t.1 := by
    intro t ht
    obtain ⟨e, he, ht⟩ := mem_flatMap.mp ht
    obtain ⟨u, -, rfl⟩ := mem_map.mp ht
    obtain ⟨i, hget⟩ := mem_iff_getElem?.mp he
    rw [List.getElem?_drop, List.getElem?_zipIdx] at hget
    obtain ⟨z, -, rfl⟩ := Option.map_eq_some_iff.mp hget
    dsimp only
    omega
  have hstop : ∀ {k : ℕ} {l : List (ℕ × U64)}, (∀ t ∈ l, k ≤ t.1) →
      l.dropWhile (fun t => t.1 < k) = l ∧ l.takeWhile (fun t => t.1 < k) = [] := by
    intro k l hl
    cases l with
    | nil => exact ⟨rfl, rfl⟩
    | cons t l =>
      have hnot : decide (t.1 < k) = false :=
        decide_eq_false (not_lt.mpr (hl t mem_cons_self))
      exact ⟨by rw [dropWhile_cons, hnot]; rfl, by rw [takeWhile_cons, hnot]; rfl⟩
  rw [branches_eq]
  conv_lhs => rw [take_append_slice_append_drop insns.zipIdx hxy]
  rw [flatMap_append, flatMap_append, dropWhile_append_of_pos hlow,
    (hstop fun t ht => (mem_append.mp ht).elim (fun h => (hmid t h).1)
      fun h => hxy.trans (hhigh t h)).1,
    takeWhile_append_of_pos fun t ht => decide_eq_true (hmid t ht).2, (hstop hhigh).2,
    append_nil]

theorem addrs_eq (insns : List LiftedInstruction) :
    (LiftShape.of insns).addrs = insns.map LiftedInstruction.address :=
  map_congr_left fun insn _ => of_address insn

theorem isIncreasing_iff (addrs : List U64) :
    LiftShape.isIncreasing addrs = true ↔ addrs.Pairwise (· < ·) := by
  have hfold : ∀ (l : List (U64 × U64)) (ok : Bool),
      l.foldl (fun ok w => ok && decide (w.1 < w.2)) ok = (ok && l.all fun w => decide (w.1 < w.2)) := by
    intro l
    induction l with
    | nil => exact fun ok => (Bool.and_true ok).symm
    | cons w l ih =>
      intro ok
      rw [foldl_cons, ih, all_cons, Bool.and_assoc]
  unfold LiftShape.isIncreasing
  rw [hfold, Bool.true_and, all_eq_true]
  simp only [decide_eq_true_eq]
  rw [← isChain_iff_pairwise]
  induction addrs with
  | nil => simp
  | cons a addrs ih =>
    cases addrs with
    | nil => simp
    | cons b addrs =>
      rw [tail_cons, zip_cons_cons, forall_mem_cons, isChain_cons_cons]
      exact and_congr_right fun _ => ih

def startsOf (insns : List LiftedInstruction) (external : List U64) : List ℕ :=
  (List.range insns.length).filter fun i => (startFlags (LiftShape.of insns) external).getD i false

variable {external : List U64} {inBody : U64 → Bool}

theorem startsOf_sorted (insns : List LiftedInstruction) (external : List U64) :
    (startsOf insns external).Pairwise (· < ·) :=
  pairwise_lt_range.filter _

theorem length_addrs (insns : List LiftedInstruction) :
    (LiftShape.of insns).addrs.length = insns.length := by
  rw [addrs_eq, length_map]

theorem startsOf_lt (hi : i ∈ startsOf insns external) : i < insns.length :=
  mem_range.mp (mem_filter.mp hi).1

section

variable (hinc : (insns.map LiftedInstruction.address).Pairwise (· < ·))

include hinc

theorem mem_startsOf : i ∈ startsOf insns external ↔
      i < insns.length ∧ IsStart (LiftShape.of insns) external i := by
  have hlen : (LiftShape.of insns).flags.length = (LiftShape.of insns).addrs.length :=
    (length_map _).trans (length_map _).symm
  unfold startsOf
  rw [mem_filter, mem_range]
  refine and_congr_right fun hi => ?_
  have hi' : i < (LiftShape.of insns).addrs.length := (length_addrs insns).symm ▸ hi
  exact startFlags_iff (addrs_eq insns ▸ hinc) hlen external hi'

variable (external) in
theorem boundary_zero (hne : insns ≠ []) : boundary (startsOf insns external) insns.length 0 = 0 ∧
      0 < (startsOf insns external).length := by
  have h0 : 0 ∈ startsOf insns external :=
    (mem_startsOf hinc).mpr ⟨length_pos_of_ne_nil hne, .inl rfl⟩
  have hpos : 0 < (startsOf insns external).length := length_pos_of_mem h0
  obtain ⟨c, hc, hget⟩ := mem_iff_getElem.mp h0
  have hle := boundary_mono (startsOf_sorted insns external)
    (fun x hx => startsOf_lt hx) (Nat.zero_le c)
  have hc0 : boundary (startsOf insns external) insns.length c = 0 := (boundary_eq hc).trans hget
  exact ⟨by omega, hpos⟩

theorem build_eq (hne : insns ≠ []) : Cfg.build insns external inBody =
      let startIdx := startsOf insns external
      let startAddr := startIdx.map fun i => (LiftShape.of insns).addrs.getD i 0
      let e := blockEdges (LiftShape.of insns) insns.length startIdx (binarySearch startAddr)
        (LiftShape.of insns).branches
      Cfg.ofEdges startIdx startAddr ((range startIdx.length).map fun b =>
        decide (b ≠ 0) && (decide (startAddr.getD b 0 ∈ external) ||
          (decide (b ∉ e.reached startIdx.length) && inBody (startAddr.getD b 0)))) e := by
  have hincr : (LiftShape.of insns).increasing = true :=
    (isIncreasing_iff _).mpr ((addrs_eq insns).symm ▸ hinc : (LiftShape.of insns).addrs.Pairwise _)
  have hempty : (LiftShape.of insns).addrs.isEmpty = false := by
    rw [addrs_eq, isEmpty_eq_false_iff, ne_eq, map_eq_nil_iff]
    exact hne
  have hcond : ¬ (!(LiftShape.of insns).increasing || (LiftShape.of insns).addrs.isEmpty) = true := by
    rw [hincr, hempty]
    decide
  unfold Cfg.build Cfg.buildShaped
  dsimp only
  rw [if_neg hcond, length_addrs]
  rfl

end

theorem getD_addrs {insn : LiftedInstruction} (hi : insns[i]? = some insn) :
    (LiftShape.of insns).addrs.getD i 0 = insn.address := by
  rw [addrs_eq, getD_eq_getElem?_getD, getElem?_map, hi]
  rfl

section Increasing

variable (hinc : (insns.map LiftedInstruction.address).Pairwise (· < ·)) (hne : insns ≠ [])
include hinc hne

variable (inBody) in
theorem build_startIdx : (Cfg.build insns external inBody).startIdx = startsOf insns external := by
  rw [build_eq hinc hne]
  rfl

theorem build_startAddr : (Cfg.build insns external inBody).startAddr =
    (startsOf insns external).map fun i => (LiftShape.of insns).addrs.getD i 0 := by
  rw [build_eq hinc hne]
  rfl

theorem blockInsns_build (b : ℕ) (hb : b < (startsOf insns external).length) :
    blockInsns (Cfg.build insns external inBody) insns b =
      slice insns.zipIdx (boundary (startsOf insns external) insns.length b)
        (boundary (startsOf insns external) insns.length (b + 1)) := by
  unfold blockInsns
  rw [build_startIdx inBody hinc hne]
  unfold boundary
  rw [getD_eq_getElem _ _ hb, getD_eq_getElem _ _ hb]

theorem blockJumps_build {b : ℕ} (hb : b < (startsOf insns external).length) :
    blockJumps (Cfg.build insns external inBody) b =
      jumpsOf insns.length (startsOf insns external) (binarySearch ((startsOf insns external).map
          fun i => (LiftShape.of insns).addrs.getD i 0)) (LiftShape.of insns).branches b := by
  obtain ⟨h0, -⟩ := boundary_zero external hinc hne
  rw [build_eq hinc hne]
  dsimp only
  rw [blockEdges_eq (startsOf_sorted insns external) (fun x hx => startsOf_lt hx) h0]
  exact slice_at _ hb

omit hne in
theorem startAddr_sorted :
    ((startsOf insns external).map fun i => (LiftShape.of insns).addrs.getD i 0).Pairwise
      (· < ·) := by
  rw [pairwise_map]
  refine (startsOf_sorted insns external).imp_of_mem fun {i j} hi hj hij => ?_
  have hi' : i < (insns.map LiftedInstruction.address).length := by
    rw [length_map]
    exact startsOf_lt hi
  have hj' : j < (insns.map LiftedInstruction.address).length := by
    rw [length_map]
    exact startsOf_lt hj
  rw [addrs_eq, getD_eq_getElem _ _ hi', getD_eq_getElem _ _ hj']
  exact pairwise_iff_getElem.mp hinc i j hi' hj' hij

variable (external inBody) in
theorem build_fits : Fits (Cfg.build insns external inBody) insns := by
  obtain ⟨-, hpos⟩ := boundary_zero external hinc hne
  have hlt : ∀ x ∈ startsOf insns external, x < insns.length := fun x hx => startsOf_lt hx
  have hsorted := startsOf_sorted insns external
  refine ⟨?_, ?_, ?_, fun b hb => ?_, ?_, ?_, ?_⟩
  · rw [build_startIdx inBody hinc hne]
    exact hpos
  · rw [build_startIdx inBody hinc hne, build_startAddr hinc hne, length_map]
  · rw [build_startAddr hinc hne]
    exact startAddr_sorted hinc
  · rw [build_startIdx inBody hinc hne] at hb
    rw [blockJumps_build hinc hne hb, blockInsns_build hinc hne b hb, build_startAddr hinc hne]
    unfold jumpsOf
    rw [branches_between (boundary_lt hsorted hlt hb).le, map_flatMap, map_flatMap]
    refine flatMap_congr fun e _ => ?_
    rw [map_map]
    rfl
  · rw [build_eq hinc hne]
    rfl
  · rw [build_eq hinc hne]
    exact (length_map _).trans length_range
  · rw [build_eq hinc hne]
    rfl

theorem boundary_spec {k lo hi : ℕ} (hk : k < (startsOf insns external).length)
    (hlo : boundary (startsOf insns external) insns.length k = lo)
    (hhi : boundary (startsOf insns external) insns.length (k + 1) = hi) :
    lo < hi ∧ hi ≤ insns.length ∧
      (blockInsns (Cfg.build insns external inBody) insns k).map Prod.fst = slice insns lo hi ∧
      ∃ x, insns[lo]? = some x ∧ x.address = addrOf (Cfg.build insns external inBody) k := by
  subst hlo hhi
  have hlt : ∀ x ∈ startsOf insns external, x < insns.length := fun x hx => startsOf_lt hx
  have hget := getElem?_eq_getElem (hlt _ (boundary_mem (n := insns.length) hk))
  refine ⟨boundary_lt (startsOf_sorted insns external) hlt hk, boundary_le hlt, ?_, _, hget, ?_⟩
  · rw [blockInsns_build hinc hne k hk]
    unfold slice
    rw [map_drop, map_take, zipIdx_map_fst]
  · unfold addrOf
    rw [build_startAddr hinc hne, getD_eq_getElem?_getD, getElem?_map,
      getElem?_eq_getElem hk, map_some, getD_some,
      ← boundary_eq (n := insns.length) hk]
    exact (getD_addrs hget).symm

theorem exists_boundary {b : U64} (hb : b ∈ (Cfg.build insns external inBody).startAddr) :
    ∃ k lo hi insn, k < (startsOf insns external).length ∧ insns[lo]? = some insn ∧
      insn.address = b ∧
      (indexBlocks (Cfg.build insns external inBody) insns).body b = slice insns lo hi ∧
      lo < hi ∧ hi ≤ insns.length ∧ boundary (startsOf insns external) insns.length k = lo ∧
      boundary (startsOf insns external) insns.length (k + 1) = hi ∧
      addrOf (Cfg.build insns external inBody) k = b := by
  have hF := build_fits external inBody hinc hne
  obtain ⟨k, hk, rfl⟩ := hF.exists_of_mem hb
  have hbody := hF.search hk
  rw [build_startIdx inBody hinc hne] at hk
  obtain ⟨hlt, hle, hslice, x, hx, haddr⟩ := @boundary_spec _ _ inBody hinc hne _ _ _ hk rfl rfl
  refine ⟨k, _, _, x, hk, hx, haddr, ?_, hlt, hle, rfl, rfl, rfl⟩
  change ((binarySearch (Cfg.build insns external inBody).startAddr _).map _).getD [] = _
  rw [hbody, map_some, getD_some, hslice]

omit hne in
theorem idxOf_address {x : LiftedInstruction} (hi : insns[i]? = some x) :
    (insns.map LiftedInstruction.address).idxOf x.address = i := by
  have hnodup : (insns.map LiftedInstruction.address).Nodup := hinc.imp fun h => ne_of_lt h
  have hi' : (insns.map LiftedInstruction.address)[i]? = some x.address := by
    rw [getElem?_map, hi]
    rfl
  obtain ⟨hlt, heq⟩ := List.getElem?_eq_some_iff.mp hi'
  rw [← heq]
  exact List.Nodup.idxOf_getElem hnodup i hlt

omit hne in
theorem index_unique {j : ℕ} {x y : LiftedInstruction} (hi : insns[i]? = some x)
    (hj : insns[j]? = some y) (heq : x.address = y.address) : i = j := by
  rw [← idxOf_address hinc hi, heq, idxOf_address hinc hj]

theorem mem_startAddr {x : LiftedInstruction} (hi : insns[i]? = some x) :
    x.address ∈ (Cfg.build insns external inBody).startAddr ↔ i ∈ startsOf insns external := by
  constructor
  · intro hmem
    obtain ⟨k, _, _, y, hk, hy, hxy, -, -, -, rfl, -⟩ := exists_boundary hinc hne hmem
    rw [index_unique hinc hi hy hxy.symm]
    exact boundary_mem hk
  · intro hmem
    rw [build_startAddr hinc hne, ← getD_addrs hi]
    exact mem_map.mpr ⟨i, hmem, rfl⟩

theorem build_tiles : Tiles insns (indexBlocks (Cfg.build insns external inBody) insns)
    (· ∈ (Cfg.build insns external inBody).startAddr)
    fun a => (insns.map LiftedInstruction.address).idxOf a := by
  have hF := build_fits external inBody hinc hne
  refine ⟨fun b hb => ?_, fun i insn hi _ => idxOf_address hinc hi, fun b hb insn hinsn hmem => ?_,
    fun b hb insn hinsn dest hdest htarget => ?_, fun b hb hstop insn hnext => ?_⟩
  · obtain ⟨k, lo, hi, insn, -, hget, haddr, hbody, hless, -⟩ := exists_boundary hinc hne hb
    have hcut : slice insns lo hi <+: insns.drop lo := by
      unfold slice
      rw [drop_take]
      exact take_prefix _ _
    have hhead : ∃ rest, slice insns lo hi = insn :: rest := by
      obtain ⟨hin, heq⟩ := List.getElem?_eq_some_iff.mp hget
      unfold slice
      rw [drop_take, drop_eq_getElem_cons hin, heq]
      exact ⟨_, take_cons (by omega)⟩
    obtain ⟨rest, hrest⟩ := hhead
    obtain ⟨rest', huntil⟩ := untilStop_cons insn rest
    refine ⟨insn, rest', ?_, haddr, ?_⟩
    · rw [hbody, hrest, huntil]
    · rw [← haddr, idxOf_address hinc hget, ← huntil, ← hrest]
      exact (prefix_untilStop _).trans hcut
  · obtain ⟨k, lo, hi, x, hk, hget, -, hbody, -, -, hlo, hhi, -⟩ := exists_boundary hinc hne hb
    rw [hbody] at hinsn
    obtain ⟨j, hj⟩ := mem_iff_getElem?.mp hinsn
    rw [getElem?_tail] at hj
    obtain ⟨rest, hrest⟩ := prefix_untilStop (slice insns lo hi)
    have hin : (slice insns lo hi)[j + 1]? = some insn := by
      rw [← hrest, List.getElem?_append_left (List.getElem?_eq_some_iff.mp hj).1]
      exact hj
    unfold slice at hin
    rw [List.getElem?_drop, List.getElem?_take] at hin
    split at hin
    · next hless =>
      refine notMem_between (startsOf_sorted insns external) (fun x hx => startsOf_lt hx)
        (by omega) (hhi ▸ hless) ((mem_startAddr hinc hne hin).mp hmem)
    · cases hin
  · obtain ⟨k, lo, hi, x, -, -, -, hbody, -⟩ := exists_boundary hinc hne hb
    have hin : insn ∈ insns := by
      rw [hbody] at hinsn
      have hmem := (prefix_untilStop _).subset hinsn
      exact mem_of_mem_take (mem_of_mem_drop hmem)
    obtain ⟨i, hi⟩ := mem_iff_getElem?.mp hdest
    obtain ⟨j, hj⟩ := mem_iff_getElem?.mp hin
    refine and_self_iff.mpr ((mem_startAddr hinc hne hi).mpr ((mem_startsOf hinc).mpr
      ⟨(List.getElem?_eq_some_iff.mp hi).1, .inr (.inr (.inl ⟨(j, dest.address), ?_, ?_⟩))⟩))
    · rw [branches_eq]
      refine mem_flatMap.mpr ⟨(insn, j), mem_zipIdx_iff_getElem?.mpr hj, ?_⟩
      exact mem_map.mpr ⟨dest.address, htarget, rfl⟩
    · rw [addrs_eq, List.getElem?_map, hi]
      rfl
  · obtain ⟨k, lo, hi, x, hk, hget, haddr, hbody, hless, hle, -, hhi, hak⟩ :=
      exists_boundary hinc hne hb
    rw [hbody] at hstop hnext
    have hlen : (slice insns lo hi).length = hi - lo := by
      unfold slice
      rw [length_drop, length_take, min_eq_left hle]
    rw [untilStop_eq_self hstop, ← haddr, idxOf_address hinc hget, hlen,
      Nat.add_sub_cancel' hless.le] at hnext
    have hk' : k + 1 < (startsOf insns external).length := by
      by_contra hge
      rw [← hhi, boundary_end (not_lt.mp hge), getElem?_eq_none (le_refl _)] at hnext
      cases hnext
    refine ⟨(mem_startAddr hinc hne hnext).mpr (hhi ▸ boundary_mem hk'), ?_⟩
    have hk'' : k < (Cfg.build insns external inBody).startIdx.length := by
      rw [build_startIdx inBody hinc hne]
      exact hk
    change (binarySearch (Cfg.build insns external inBody).startAddr b).bind _ = _
    rw [← hak, hF.search hk'', Option.bind_some, build_startAddr hinc hne, List.getElem?_map,
      List.getElem?_eq_getElem hk', map_some, ← boundary_eq (n := insns.length) hk', hhi,
      getD_addrs hnext]

end Increasing

end Built

end BlockCfg
