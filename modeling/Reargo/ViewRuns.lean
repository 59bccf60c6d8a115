import Reargo.ViewCoherence

/-!
# An instruction's ops with their views

The ops an instruction's lift ends with, run on variables, read and leave what the original
ops do on the registers' bytes.
-/
namespace ViewRuns

open PcodeModel RegisterViews ByteFields ViewMachines ViewExpansion ViewCoherence List Function
open Bool hiding decide_true ofNat_toNat or_assoc or_false
open BitVec hiding or_assoc

variable {M : Type} {sem : PcodeOp → List ℕ → M → ℕ × M} {n : ℕ} {s s' : Vars} {b : Bytewise}
  {high zeroUpper : Bool} {w : VarnodeData}

/-- An operand of an instruction: a kept view, a high byte or no part of the register files,
and no temporary of the passes. -/
structure Clean (n : ℕ) (v : VarnodeData) : Prop where
  where_ : inFiles v = false ∨ kept v = true ∨ highByte v = true
  own : ¬ Scratch n v

section Steps

variable {v : VarnodeData} {off : U64}

theorem not_scratch_of_register (h : v.space = .register) : ¬ Scratch n v := by
  rintro ⟨hspace, -⟩
  rw [h] at hspace
  cases hspace

theorem inFiles_of_highByte (h : highByte v = true) : inFiles v = true := by
  have hbase := base_of_highByte h
  have hlow : v.offset.toNat < 0xC0 := by omega
  simp only [inFiles, space_of_highByte h, hlow, decide_true, beq_self_eq_true, Bool.true_or,
    Bool.and_true]

theorem not_kept_of_highByte (h : highByte v = true) : kept v = false := by
  rw [eq_false_iff]
  intro hk
  have hbase := base_of_highByte h
  obtain ⟨-, hgpr | hxmm⟩ := kept_cases hk
  · omega
  · omega

theorem kept_base (h : highByte v = true) {k : ℕ}
    (hk : k = 1 ∨ k = 2 ∨ k = 4 ∨ k = 8) : kept (reg (v.offset - 1) k) = true := by
  obtain ⟨-, hlt, hmod⟩ := base_of_highByte h
  have hlow : (v.offset - 1).toNat < 0xC0 := by omega
  have hne : (v.offset - 1 != 0x20) = true := by
    rw [bne_iff_ne]
    intro heq
    rw [heq] at hlt
    exact absurd hlt (by decide)
  have hsize : (k == 1 || k == 2 || k == 4 || k == 8) = true := by
    rcases hk with rfl | rfl | rfl | rfl <;> rfl
  simp only [kept, gprView, reg, beq_self_eq_true, hlow, decide_true, hmod, hsize, hne,
    Bool.true_and, Bool.true_or]

theorem read_of_eq (h : s' v = s v) :
    perVarnode.read s' v = perVarnode.read s v := congrArg Fin.val h

theorem agrees_writeHigh (h : Agrees n s b) (hw : highByte w = true) (x : ℕ) :
    Agrees n (perVarnode.write s w x) b := by
  refine ⟨fun v hv => ?_, fun v hv hs => ?_⟩
  · have hne : v ≠ w := by
      rintro rfl
      rw [not_kept_of_highByte hw] at hv
      cases hv
    rw [read_write, if_neg hne]
    exact h.view v hv
  · have hne : v ≠ w := by
      rintro rfl
      rw [inFiles_of_highByte hw] at hv
      cases hv
    exact (update_of_ne hne _ _).trans (h.other v hv hs)

/-- A high byte's variable agrees with its byte. -/
def HighFresh (s : Vars) (b : Bytewise) (v : VarnodeData) : Prop :=
  perVarnode.read s v = word b.file v.offset.toNat v.size

theorem size_of_highByte (h : highByte v = true) : v.size = 1 := by
  simp only [highByte, and_eq_true, beq_iff_eq] at h
  exact h.1.1.1

theorem read_high (h : Agrees n s b) (hw : highByte w = true) (m : M) :
    exec perVarnode sem (mk .subpiece w [reg (w.offset - 1) 8, constant 1 4]) (s, m) =
      (perVarnode.write s w (word b.file w.offset.toNat 1), m) := by
  have hsize := size_of_highByte hw
  have hone : (1 : U64).toNat = 1 := rfl
  rw [exec_subpiece sem _ (reg_ne_const _ _), h.view _ (kept_base hw (.inr (.inr (.inr rfl)))), hone,
    hsize, reg_size, reg_offset, word_div b.file (w.offset - 1).toNat 1 7,
    word_mod b.file _ (by decide), ← (base_of_highByte hw).1]

theorem highReads_spec (sem : PcodeOp → List ℕ → M → ℕ × M) (ins : List VarnodeData)
    (last : Option VarnodeData) (s : Vars) (m : M)
    (h : Agrees n s b) (hlast : ∀ v, last = some v → highByte v = true → HighFresh s b v) :
    ∃ s', execAll perVarnode sem (highReads last ins) (s, m) = (s', m) ∧ Agrees n s' b ∧
      (∀ v, highByte v = true → HighFresh s b v → HighFresh s' b v) ∧
      ∀ v ∈ ins, highByte v = true → HighFresh s' b v := by
  induction ins generalizing last s with
  | nil => exact ⟨s, rfl, h, fun _ _ hv => hv, nofun⟩
  | cons w ins ih =>
    by_cases hw : highByte w = true
    · by_cases hsame : last = some w
      · obtain ⟨s', hexec, hok, hkeeps, hall⟩ := ih (some w) s h (fun v hv hv' => by
          cases hv
          exact hlast w hsame hv')
        have hlist : highReads last (w :: ins) = highReads (some w) ins := by
          simp only [highReads, hw, if_true, hsame, bne_self_eq_false, false_eq_true, if_false]
        refine ⟨s', hlist ▸ hexec, hok, hkeeps, fun v hv hv' => ?_⟩
        rcases mem_cons.mp hv with rfl | hv
        · exact hkeeps v hw (hlast v hsame hw)
        · exact hall v hv hv'
      · have hfresh : ∀ v, highByte v = true → (v = w ∨ HighFresh s b v) →
            HighFresh (perVarnode.write s w (word b.file w.offset.toNat 1)) b v := by
          intro v hv hcase
          unfold HighFresh
          rw [read_write]
          split
          next heq =>
            subst heq
            rw [size_of_highByte hv]
            exact Nat.mod_eq_of_lt (word_lt _ _ _)
          next hne => exact hcase.resolve_left hne
        obtain ⟨s', hexec, hok, hkeeps, hall⟩ := ih (some w) _ (agrees_writeHigh h hw _)
          (fun v hv hv' => hfresh v hv' (.inl (Option.some.inj hv).symm))
        have hlist : highReads last (w :: ins) =
            mk .subpiece w [reg (w.offset - 1) 8, constant 1 4] :: highReads (some w) ins := by
          have hne : (last != some w) = true := bne_iff_ne.mpr hsame
          simp only [highReads, hw, if_true, hne]
        refine ⟨s', ?_, hok, fun v hv hv' => hkeeps v hv (hfresh v hv (.inr hv')),
          fun v hv hv' => ?_⟩
        · rw [hlist, execAll_cons, read_high h hw]
          exact hexec
        · rcases mem_cons.mp hv with rfl | hv
          · exact hkeeps v hw (hfresh v hw (.inl rfl))
          · exact hall v hv hv'
    · have hlist : highReads last (w :: ins) = highReads last ins := by
        simp only [highReads, hw, false_eq_true, if_false]
      obtain ⟨s', hexec, hok, hkeeps, hall⟩ := ih last s h hlast
      refine ⟨s', hlist ▸ hexec, hok, hkeeps, fun v hv hv' => ?_⟩
      rcases mem_cons.mp hv with rfl | hv
      · exact absurd hv' hw
      · exact hall v hv hv'

theorem operand_eq (h : Agrees n s b) (hv : Clean n v)
    (hhigh : highByte v = true → HighFresh s b v) :
    operand perVarnode s v = operand (bytewise zeroUpper) b v := by
  unfold operand
  split
  · rfl
  · rcases hv.where_ with hout | hk | hh
    · simp only [bytewise, hout, false_eq_true, if_false]
      exact congrArg Fin.val (h.other v hout hv.own)
    · simp only [bytewise, inFiles_of_kept hk, if_true]
      exact h.view v hk
    · simp only [bytewise, inFiles_of_highByte hh, if_true]
      exact hhigh hh

theorem agrees_refresh (h : Agrees n s b) {sizes : List ℕ} {width x : ℕ} (hw : inFiles w = true)
    (hwk : kept w = true → w.offset = off) (hoff : inFiles (reg off 8) = true)
    (hsizes : ∀ v, kept v = true → v.offset = off → v.size ∈ sizes ∧ v.size ≤ width)
    (hfar : ∀ v, kept v = true → v.offset ≠ off → v.offset.toNat + v.size ≤ w.offset.toNat ∨
    w.offset.toNat + written zeroUpper w ≤ v.offset.toNat) (hall : AllFresh off sizes
    (word (put b.file w.offset.toNat (written zeroUpper w) x) off.toNat width) s')
    (hrest : ∀ v, ¬ (v.space = .register ∧ v.offset = off) → ¬ Scratch n v →
    s' v = perVarnode.write s w x v) : Agrees n s' ((bytewise zeroUpper).write b w x) := by
  have hb : (bytewise zeroUpper).write b w x =
      { b with file := put b.file w.offset.toNat (written zeroUpper w) x } := by
    simp only [bytewise, hw, if_true]
  rw [hb]
  refine ⟨fun v hv => ?_, fun v hv hs => ?_⟩
  · have hspace := (kept_cases hv).1
    by_cases hat : v.offset = off
    · obtain ⟨hmem, hle⟩ := hsizes v hv hat
      have hveq : v = reg off v.size := by
        obtain ⟨space, offset, size⟩ := v
        simp only at hspace hat
        rw [hspace, hat]
        rfl
      have hread := hall v.size hmem
      rw [← hveq, word_mod _ _ hle] at hread
      rw [hread, hat]
    · have hne : v ≠ w := by
        rintro rfl
        exact hat (hwk hv)
      have hsame : s' v = s v := (hrest v (fun h => hat h.2) (not_scratch_of_register hspace)).trans
        (update_of_ne hne _ _)
      rw [read_of_eq hsame, h.view v hv]
      exact (word_put_off (hfar v hv hat)).symm
  · have hat : ¬ (v.space = .register ∧ v.offset = off) := by
      rintro ⟨hspace, heq⟩
      have hin : inFiles v = inFiles (reg off 8) := by
        unfold inFiles
        rw [hspace, heq]
        rfl
      rw [hin, hoff] at hv
      cases hv
    have hne : v ≠ w := by
      rintro rfl
      rw [hw] at hv
      cases hv
    exact ((hrest v hat hs).trans (update_of_ne hne _ _)).trans (h.other v hv hs)

theorem eq_reg (h : v.space = .register) : v = reg v.offset v.size := by
  obtain ⟨space, offset, size⟩ := v
  simp only at h
  rw [h]
  rfl

theorem kept_of_gprSizes {size k : ℕ} (hg : gprView (reg off size) = true)
    (hk : k ∈ gprSizes off) : kept (reg off k) = true := by
  have hlt : off.toNat < 0xC0 := lt_of_gprView hg
  simp only [gprView, reg, and_eq_true] at hg
  unfold gprSizes at hk
  split at hk
  next heq =>
    rw [mem_singleton] at hk
    subst hk heq
    rfl
  next hne =>
    have hoff : (off != 0x20) = true := bne_iff_ne.mpr hne
    have hsize : (k == 1 || k == 2 || k == 4 || k == 8) = true := by
      simp only [mem_cons, not_mem_nil, or_false] at hk
      rcases hk with rfl | rfl | rfl | rfl <;> rfl
    simp only [kept, gprView, reg, hg.1.1.1, hlt, decide_true, hg.1.2, hsize, hoff, Bool.and_self,
      Bool.true_or]

variable (sem : PcodeOp → List ℕ → M → ℕ × M) (zeroUpper : Bool) (h : Agrees n s b)

include h

/-- The general registers' part. -/
theorem gpr_step {size x : ℕ} {t : U64}
    (hg : gprView (reg off size) = true) (hrsp : off = 0x20 → size = 8)
    (ht : Scratch n (unique t 0)) (hx : x < 256 ^ size) (m : M) :
    ∃ s', execAll perVarnode sem (gprViews (reg off size) t).1
        (perVarnode.write s (reg off size) x, m) = (s', m) ∧
      Agrees n s' ((bytewise zeroUpper).write b (reg off size) x) := by
  have hlt : off.toNat < 0xC0 := lt_of_gprView hg
  have hmod : off.toNat % 8 = 0 := by
    simp only [gprView, reg, and_eq_true, beq_iff_eq] at hg
    exact hg.1.2
  have hsize : size = 1 ∨ size = 2 ∨ size = 4 ∨ size = 8 := by
    simp only [gprView, and_eq_true, or_eq_true, beq_iff_eq, or_assoc] at hg
    exact hg.2
  have hwritten : written zeroUpper (reg off size) = if size = 4 then 8 else size := by
    have hxmm : xmmView (reg off size) = false := not_xmm_reg (by omega) _
    simp only [written, hg, hxmm, Bool.true_and, Bool.false_and, false_eq_true, if_false,
      beq_iff_eq, reg_size]
  have hle : size ≤ written zeroUpper (reg off size) ∧ written zeroUpper (reg off size) ≤ 8 := by
    rw [hwritten]
    rcases hsize with rfl | rfl | rfl | rfl <;> decide
  have hself : kept (reg off size) = true := by
    by_cases hoff : off = 0x20
    · obtain rfl := hrsp hoff
      subst hoff
      rfl
    · apply kept_of_gprSizes hg
      rw [gprSizes, if_neg hoff]
      rcases hsize with rfl | rfl | rfl | rfl <;> decide
  obtain ⟨old, hold⟩ : ∃ old, old = word b.file off.toNat 8 := ⟨_, rfl⟩
  obtain ⟨full, hfull⟩ : ∃ full, full =
    word (put b.file off.toNat (written zeroUpper (reg off size)) x) off.toNat 8 := ⟨_, rfl⟩
  have hsizes : ∀ k ∈ gprSizes off, k ≤ 8 := by
    intro k hk
    unfold gprSizes at hk
    split at hk
    · rw [mem_singleton.mp hk]
    · simp only [mem_cons, not_mem_nil, or_false] at hk
      omega
  have hstart : Fresh off (gprSizes off) full old [size] (perVarnode.write s (reg off size) x) := by
    constructor
    · intro k hk
      rw [mem_singleton.mp hk, read_write_reg, if_pos rfl, hfull,
        word_mod _ _ (hle.1.trans hle.2), word_put_low _ _ _ hle.1]
    · intro k hk hne
      rw [mem_singleton] at hne
      rw [read_write_reg, if_neg hne, h.view _ (kept_of_gprSizes hg hk), hold,
        word_mod _ _ (hsizes k hk), reg_offset, reg_size]
  have hruns : Runs sem (gprViews (reg off size) t).1 (Fresh off (gprSizes off) full old [size])
      (AllFresh off (gprSizes off) full) := gprViews_runs hsize hrsp
    (fun hfour => by
      subst hfour
      rw [if_pos rfl] at hwritten
      rw [hfull, hwritten, word_put_self]
      exact lt_of_le_of_lt (Nat.mod_le _ _) hx)
    (fun hnarrow => by
      have hne : ¬ size = 4 := by omega
      rw [if_neg hne] at hwritten
      rw [hold, hfull, hwritten, Nat.mod_eq_of_lt (word_lt _ _ _),
        Nat.mod_eq_of_lt (word_lt _ _ _), word_put_high _ _ _ (hle.1.trans hle.2)])
  obtain ⟨s', hexec, hall⟩ := hruns _ m hstart
  refine ⟨s', hexec, ?_⟩
  rw [hfull] at hall
  refine agrees_refresh h (inFiles_of_kept hself) (fun _ => rfl) ?_ ?_ ?_ hall ?_
  · simp only [inFiles, reg, hlt, decide_true, beq_self_eq_true, Bool.true_or, Bool.and_true]
  · intro v hv hat
    obtain ⟨-, ⟨-, -, hvsize, hvrsp⟩ | ⟨hge, -⟩⟩ := kept_cases hv
    · refine ⟨?_, by omega⟩
      unfold gprSizes
      split
      next heq =>
        rw [hvrsp (hat.trans heq)]
        decide
      · simp only [mem_cons, not_mem_nil, or_false]
        exact hvsize
    · rw [hat, reg_offset] at hge
      omega
  · intro v hv hne
    have hne' : v.offset.toNat ≠ off.toNat := fun heq => hne (eq_of_toNat_eq heq)
    simp only [reg_offset]
    obtain ⟨-, ⟨-, hvmod, hvsize, -⟩ | ⟨hge, -⟩⟩ := kept_cases hv
    · omega
    · omega
  · intro v hv hs
    have hrest := rest_of_within off (within_gprViews size ht) sem
      (perVarnode.write s (reg off size) x, m) hv hs
    rw [hexec] at hrest
    exact hrest

theorem xmm_step {size x : ℕ} {u : U64}
    (hxmm : xmmView (reg off size) = true) (hu : Scratch n (unique u 0))
    (hu' : Scratch n (unique (u + 8) 0)) (hx : x < 256 ^ size) (m : M) :
    ∃ s', execAll perVarnode sem (xmmViews zeroUpper (reg off size) u).1
        (perVarnode.write s (reg off size) x, m) = (s', m) ∧
      Agrees n s' ((bytewise zeroUpper).write b (reg off size) x) := by
  have hself : kept (reg off size) = true := by
    rw [kept, hxmm, Bool.or_true]
  have hbase : xmmBase.toNat = 0x1200 := rfl
  have hparts := hxmm
  simp only [xmmView, reg, hbase, and_eq_true, or_eq_true, beq_iff_eq,
    decide_eq_true_eq, or_assoc] at hparts
  obtain ⟨⟨⟨⟨-, hge⟩, hlt⟩, hmod⟩, hsize⟩ := hparts
  have hnot : gprView (reg off size) = false := by
    rw [eq_false_iff]
    intro hg
    have hlow := lt_of_gprView hg
    rw [reg_offset] at hlow
    omega
  have hwritten : written zeroUpper (reg off size) = if zeroUpper = true then 16 else size := by
    simp only [written, hnot, hxmm, Bool.false_and, Bool.true_and, false_eq_true, if_false,
      reg_size]
  have hle : size ≤ written zeroUpper (reg off size) ∧ written zeroUpper (reg off size) ≤ 16 := by
    rw [hwritten]
    split
    · omega
    · omega
  have hkept : ∀ k ∈ [4, 8, 16], kept (reg off k) = true := by
    intro k hk
    have hk' : (k == 4 || k == 8 || k == 16) = true := by
      simp only [mem_cons, not_mem_nil, or_false] at hk
      rcases hk with rfl | rfl | rfl <;> rfl
    have hview : xmmView (reg off k) = true := by
      simp only [xmmView, and_eq_true] at hxmm ⊢
      exact ⟨hxmm.1, hk'⟩
    rw [kept, hview, Bool.or_true]
  obtain ⟨old, hold⟩ : ∃ old, old = word b.file off.toNat 16 := ⟨_, rfl⟩
  obtain ⟨full, hfull⟩ : ∃ full, full =
    word (put b.file off.toNat (written zeroUpper (reg off size)) x) off.toNat 16 := ⟨_, rfl⟩
  have hstart : Fresh off [4, 8, 16] full old [size] (perVarnode.write s (reg off size) x) := by
    constructor
    · intro k hk
      rw [mem_singleton.mp hk, read_write_reg, if_pos rfl, hfull,
        word_mod _ _ (hle.1.trans hle.2), word_put_low _ _ _ hle.1]
    · intro k hk hne
      rw [mem_singleton] at hne
      have hk16 : k ≤ 16 := by
        simp only [mem_cons, not_mem_nil, or_false] at hk
        omega
      rw [read_write_reg, if_neg hne, h.view _ (hkept k hk), hold, word_mod _ _ hk16, reg_offset,
        reg_size]
  have hruns : Runs sem (xmmViews zeroUpper (reg off size) u).1 (Fresh off [4, 8, 16] full old [size])
      (AllFresh off [4, 8, 16] full) := xmmViews_runs hsize
    (fun hz => by
      rw [if_pos hz] at hwritten
      rw [hfull, hwritten, word_put_self]
      exact lt_of_le_of_lt (Nat.mod_le _ _) hx)
    (fun hz a ha ha16 => by
      have hne : ¬ zeroUpper = true := by
        rw [hz]
        decide
      rw [if_neg hne] at hwritten
      rw [hold, hfull, hwritten, word_mod _ _ ha16, word_mod _ _ ha16, word_put_high _ _ _ ha])
  obtain ⟨s', hexec, hall⟩ := hruns _ m hstart
  refine ⟨s', hexec, ?_⟩
  rw [hfull] at hall
  refine agrees_refresh h (inFiles_of_kept hself) (fun _ => rfl) ?_ ?_ ?_ hall ?_
  · exact inFiles_of_kept (hkept 8 (by decide))
  · intro v hv hat
    obtain ⟨-, ⟨hvlt, -⟩ | ⟨-, -, -, hvsize⟩⟩ := kept_cases hv
    · rw [hat, reg_offset] at hvlt
      omega
    · refine ⟨?_, by omega⟩
      simp only [mem_cons, not_mem_nil, or_false]
      exact hvsize
  · intro v hv hne
    have hne' : v.offset.toNat ≠ off.toNat := fun heq => hne (eq_of_toNat_eq heq)
    simp only [reg_offset]
    obtain ⟨-, ⟨hvlt, -, hvsize, -⟩ | ⟨hvge, hvlt, hvmod, hvsize⟩⟩ := kept_cases hv
    · omega
    · omega
  · intro v hv hs
    have hrest := rest_of_within off (within_xmmViews zeroUpper size hu hu') sem
      (perVarnode.write s (reg off size) x, m) hv hs
    rw [hexec] at hrest
    exact hrest

theorem high_step {x : ℕ} {t : U64}
    (hw : highByte w = true) (ht : Scratch n (unique t 0)) (hx : x < 256) (m : M) :
    ∃ s', execAll perVarnode sem (highViews w t).1 (perVarnode.write s w x, m) = (s', m) ∧
      Agrees n s' ((bytewise zeroUpper).write b w x) := by
  have hsize := size_of_highByte hw
  obtain ⟨hoff, hlt, hmod⟩ := base_of_highByte hw
  have hnot : gprView w = false := by
    rw [eq_false_iff]
    intro hg
    simp only [gprView, and_eq_true, beq_iff_eq] at hg
    omega
  have hxmm : xmmView w = false := not_xmm_of_lt (by omega)
  have hwritten : written zeroUpper w = 1 := by
    simp only [written, hnot, hxmm, Bool.false_and, false_eq_true, if_false, hsize]
  obtain ⟨off, hbase⟩ : ∃ off, off = w.offset - 1 := ⟨_, rfl⟩
  have hkept : ∀ k ∈ [1, 2, 4, 8], kept (reg off k) = true := by
    intro k hk
    simp only [mem_cons, not_mem_nil, or_false] at hk
    rw [hbase]
    exact kept_base hw hk
  rw [← hbase] at hoff hlt hmod
  obtain ⟨old, hold⟩ : ∃ old, old = word b.file off.toNat 8 := ⟨_, rfl⟩
  obtain ⟨full, hfull⟩ : ∃ full, full = word (put b.file (off.toNat + 1) 1 x) off.toNat 8 :=
    ⟨_, rfl⟩
  have hne : ∀ k ∈ [1, 2, 4, 8], reg off k ≠ w := by
    intro k _ heq
    have hsame := congrArg (fun v => v.offset.toNat) heq
    simp only [reg_offset] at hsame
    omega
  have hread : ∀ k ∈ [1, 2, 4, 8],
      perVarnode.read (perVarnode.write s w x) (reg off k) = word b.file off.toNat k := by
    intro k hk
    rw [read_write, if_neg (hne k hk), h.view _ (hkept k hk), reg_offset, reg_size]
  have hfirst : full % 256 = word b.file off.toNat 1 := by
    have hmodone := word_mod (put b.file (off.toNat + 1) 1 x) off.toNat (m := 1) (n := 8)
      (by decide)
    rw [pow_one] at hmodone
    rw [hfull, hmodone, word_put_off (.inl (le_refl _))]
  have hstart : Fresh off [1, 2, 4, 8] full old [1] (perVarnode.write s w x) := by
    constructor
    · intro k hk
      rw [mem_singleton.mp hk, hread 1 (by decide), pow_one, hfirst]
    · intro k hk hk1
      have hk8 : k ≤ 8 := by
        simp only [mem_cons, not_mem_nil, or_false] at hk
        omega
      rw [hread k hk, hold, word_mod _ _ hk8]
  have hruns : Runs sem (highViews w t).1
      (fun s => Fresh off [1, 2, 4, 8] full old [1] s ∧ perVarnode.read s w = x)
      (AllFresh off [1, 2, 4, 8] full) := highViews_runs (space_of_highByte hw) hbase.symm
    (by
      have hadd := word_add (put b.file (off.toNat + 1) 1 x) off.toNat 1 1
      have htwo := word_mod (put b.file (off.toNat + 1) 1 x) off.toNat (m := 2) (n := 8) (by decide)
      have hself := word_put_self b.file (off.toNat + 1) 1 x
      rw [pow_one, Nat.mod_eq_of_lt hx] at hself
      rw [word_put_off (.inl (le_refl _)), hself, pow_one, ← hfirst] at hadd
      rw [hfull, htwo, show (2 : ℕ) = 1 + 1 from rfl, hadd, ← hfull]
      have hpow : (256 : ℕ) ^ (1 + 1) = 65536 := rfl
      rw [hpow]
      omega)
    (by
      have hupper : word (put b.file (off.toNat + 1) 1 x) (off.toNat + 2) 6 =
          word b.file (off.toNat + 2) 6 := word_put_off (.inr (le_refl _))
      rw [hold, hfull, Nat.mod_eq_of_lt (word_lt _ _ _), Nat.mod_eq_of_lt (word_lt _ _ _),
        word_div _ _ 2 6, word_div _ _ 2 6, hupper])
  obtain ⟨s', hexec, hall⟩ := hruns _ m ⟨hstart, by
    rw [read_write, if_pos rfl, hsize, pow_one, Nat.mod_eq_of_lt hx]⟩
  refine ⟨s', hexec, ?_⟩
  have hfile : full = word (put b.file w.offset.toNat (written zeroUpper w) x) off.toNat 8 := by
    rw [hwritten, hoff, hfull]
  rw [hfile] at hall
  refine agrees_refresh h (inFiles_of_highByte hw) (fun hk => ?_) ?_ ?_ ?_ hall ?_
  · rw [not_kept_of_highByte hw] at hk
    cases hk
  · exact inFiles_of_kept (hkept 8 (by decide))
  · intro v hv hat
    obtain ⟨-, ⟨-, -, hvsize, -⟩ | ⟨hge, -⟩⟩ := kept_cases hv
    · refine ⟨?_, by omega⟩
      simp only [mem_cons, not_mem_nil, or_false]
      exact hvsize
    · rw [hat] at hge
      omega
  · intro v hv hne
    have hne' : v.offset.toNat ≠ off.toNat := fun heq => hne (eq_of_toNat_eq heq)
    rw [hwritten, hoff]
    obtain ⟨-, ⟨-, hvmod, hvsize, -⟩ | ⟨hge, -⟩⟩ := kept_cases hv
    · omega
    · omega
  · intro v hv hs
    have hrest := rest_of_within off (within_highViews hbase.symm ht) sem
      (perVarnode.write s w x, m) hv hs
    rw [hexec] at hrest
    exact hrest

end Steps

section Runs

def operands (op : PcodeOp) : List VarnodeData := op.output.toList ++ op.inputs

theorem not_views_of_outside (h : inFiles w = false) :
    gprView w = false ∧ highByte w = false ∧ xmmView w = false := by
  refine ⟨?_, ?_, ?_⟩
  · rw [eq_false_iff]
    intro hg
    have hlt : w.offset.toNat < 0xC0 := lt_of_gprView hg
    simp only [inFiles, space_of_gprView hg, hlt, decide_true, beq_self_eq_true, Bool.true_or,
      Bool.and_true, true_eq_false] at h
  · rw [eq_false_iff]
    intro hh
    rw [inFiles_of_highByte hh] at h
    cases h
  · rw [eq_false_iff]
    intro hx
    have hk : kept w = true := by rw [kept, hx, Bool.or_true]
    rw [inFiles_of_kept hk] at h
    cases h

theorem op_step (sem : PcodeOp → List ℕ → M → ℕ × M) (zeroUpper : Bool) (h : Agrees n s b)
    {op : PcodeOp} (hclean : ∀ v ∈ operands op, Clean n v)
    (hhigh : (∃ v ∈ operands op, highByte v = true) → high = true) {t u : U64}
    (ht : Scratch n (unique t 0)) (hu : Scratch n (unique u 0))
    (hu' : Scratch n (unique (u + 8) 0)) (m : M) :
    ∃ s₁ s', execAll perVarnode sem (before high op) (s, m) = (s₁, m) ∧
      op.inputs.map (operand perVarnode s₁) = op.inputs.map (operand (bytewise zeroUpper) b) ∧
      execAll perVarnode sem ((xmmAfter zeroUpper op u).1 ++ (gprAfter high op t).1)
          (exec perVarnode sem op (s₁, m)) =
        (s', (exec (bytewise zeroUpper) sem op (b, m)).2) ∧
      Agrees n s' (exec (bytewise zeroUpper) sem op (b, m)).1 := by
  obtain ⟨s₁, hbefore, h₁, hfresh⟩ : ∃ s₁, execAll perVarnode sem (before high op) (s, m) =
      (s₁, m) ∧ Agrees n s₁ b ∧ ∀ v ∈ op.inputs, highByte v = true → HighFresh s₁ b v := by
    unfold before
    split
    · obtain ⟨s₁, hexec, h₁, -, hall⟩ := highReads_spec sem op.inputs none s m h nofun
      exact ⟨s₁, hexec, h₁, hall⟩
    next hno =>
      refine ⟨s, rfl, h, fun v hv hv' => ?_⟩
      exact absurd (hhigh ⟨v, mem_append_right _ hv, hv'⟩) hno
  have hins : op.inputs.map (operand perVarnode s₁) =
      op.inputs.map (operand (bytewise zeroUpper) b) := by
    apply map_congr_left
    intro v hv
    exact operand_eq h₁ (hclean v (mem_append_right _ hv)) (hfresh v hv)
  refine ⟨s₁, ?_⟩
  simp only [exec, hins]
  generalize value sem op (op.inputs.map (operand (bytewise zeroUpper) b)) m = r
  obtain ⟨x, m'⟩ := r
  cases ho : op.output with
  | none =>
    refine ⟨s₁, hbefore, trivial, ?_, h₁⟩
    simp only [xmmAfter, gprAfter, ho]
    rfl
  | some w =>
    have hw : Clean n w := hclean w (mem_append_left _ (by rw [ho]; exact mem_cons_self))
    simp only [xmmAfter, gprAfter, ho]
    have hlt : x % 256 ^ w.size < 256 ^ w.size := Nat.mod_lt _ (Nat.pow_pos (by decide))
    rcases hw.where_ with hout | hk | hh
    · obtain ⟨hg, hh, hx⟩ := not_views_of_outside hout
      refine ⟨perVarnode.write s₁ w (x % 256 ^ w.size), hbefore, trivial, ?_, ?_⟩
      · simp only [hg, hh, hx, Bool.and_false, false_eq_true, if_false]
        rfl
      · refine ⟨fun v hv => ?_, fun v hv hs => ?_⟩
        · have hne : v ≠ w := by
            rintro rfl
            rw [inFiles_of_kept hv] at hout
            cases hout
          rw [read_write, if_neg hne]
          simp only [bytewise, hout, false_eq_true, if_false]
          exact h₁.view v hv
        · simp only [bytewise, hout, false_eq_true, if_false]
          by_cases heq : v = w
          · subst heq
            simp only [perVarnode, update_self]
          · simp only [perVarnode, update_of_ne heq]
            exact h₁.other v hv hs
    · have hspace := (kept_cases hk).1
      rw [eq_reg hspace] at hk hlt ⊢
      have hhigh' : highByte (reg w.offset w.size) = false := by
        rw [eq_false_iff]
        intro hh
        rw [not_kept_of_highByte hh] at hk
        cases hk
      by_cases hx : xmmView (reg w.offset w.size) = true
      · have hg : gprView (reg w.offset w.size) = false := by
          rw [eq_false_iff]
          intro hg
          have hlow := lt_of_gprView hg
          rw [not_xmm_of_lt (by omega)] at hx
          cases hx
        obtain ⟨s', hexec, h'⟩ := xmm_step sem zeroUpper h₁ hx hu hu' hlt m'
        refine ⟨s', hbefore, trivial, ?_, h'⟩
        simp only [hx, hg, hhigh', if_true, Bool.and_false, false_eq_true, if_false,
          append_nil]
        exact hexec
      · have hg : gprView (reg w.offset w.size) = true ∧ (w.offset = 0x20 → w.size = 8) := by
          rw [kept, eq_false_iff.mpr hx, Bool.or_false, and_eq_true, or_eq_true,
            bne_iff_ne, beq_iff_eq] at hk
          exact ⟨hk.1, fun heq => hk.2.resolve_left (not_not.mpr heq)⟩
        obtain ⟨s', hexec, h'⟩ := gpr_step sem zeroUpper h₁ hg.1 hg.2 ht hlt m'
        refine ⟨s', hbefore, trivial, ?_, h'⟩
        simp only [hx, hg.1, hhigh', if_true, Bool.and_false, false_eq_true, if_false,
          nil_append]
        exact hexec
    · have hon : high = true :=
        hhigh ⟨w, mem_append_left _ (by rw [ho]; exact mem_cons_self), hh⟩
      have hx : xmmView w = false := by
        have hbase := base_of_highByte hh
        exact not_xmm_of_lt (by omega)
      rw [size_of_highByte hh, pow_one] at hlt ⊢
      obtain ⟨s', hexec, h'⟩ := high_step sem zeroUpper h₁ hh ht hlt m'
      refine ⟨s', hbefore, trivial, ?_, h'⟩
      simp only [hx, hon, hh, Bool.and_self, if_true, false_eq_true, if_false, nil_append]
      exact hexec

/-- The elements at the marked places. -/
def pick {α : Type} : List Bool → List α → List α
  | true :: marks, a :: l => a :: pick marks l
  | false :: marks, _ :: l => pick marks l
  | _, _ => []

theorem pick_skip {α : Type} (l rest : List α) (marks : List Bool) :
    pick (List.replicate l.length false ++ marks) (l ++ rest) = pick marks rest := by
  induction l with
  | nil => rfl
  | cons a l ih => exact ih

/-- The first temporaries of the `k`-th op. -/
def gprTmp (k : ℕ) : U64 := BitVec.ofNat 64 (0x7e00 + 0x10 * k)

def xmmTmp (k : ℕ) : U64 := BitVec.ofNat 64 (0x7f00 + 0x10 * k)

theorem gprTmp_succ (k : ℕ) : gprTmp k + 0x10 = gprTmp (k + 1) := by
  have hsum : 0x7e00 + 0x10 * (k + 1) = 0x7e00 + 0x10 * k + 0x10 := by omega
  unfold gprTmp
  rw [hsum]
  exact (ofNat_add _ _).symm

theorem xmmTmp_succ (k : ℕ) : xmmTmp k + 0x10 = xmmTmp (k + 1) := by
  have hsum : 0x7f00 + 0x10 * (k + 1) = 0x7f00 + 0x10 * k + 0x10 := by omega
  unfold xmmTmp
  rw [hsum]
  exact (ofNat_add _ _).symm

theorem scratch_tmp {n k : ℕ} (h : k < n) : Scratch n (unique (gprTmp k) 0) ∧
    Scratch n (unique (xmmTmp k) 0) ∧ Scratch n (unique (xmmTmp k + 8) 0) := by
  refine ⟨⟨rfl, k, h, .inl rfl⟩, ⟨rfl, k, h, .inr (.inl rfl)⟩, ⟨rfl, k, h, .inr (.inr ?_)⟩⟩
  have hsum : 0x7f08 + 0x10 * k = 0x7f00 + 0x10 * k + 8 := by omega
  rw [hsum, ofNat_add]
  rfl

theorem gprViews_tmp (w : VarnodeData) (t : U64) :
    (gprViews w t).2 = t ∨ (gprViews w t).2 = t + 0x10 := by
  unfold gprViews
  split
  · exact .inl rfl
  · exact .inl rfl
  · simp only
    split
    · exact .inr rfl
    · exact .inl rfl

theorem gprAfter_tmp (high : Bool) (op : PcodeOp) (k : ℕ) :
    ∃ k' ≤ k + 1, (gprAfter high op (gprTmp k)).2 = gprTmp k' := by
  have hsame : ∃ k' ≤ k + 1, gprTmp k = gprTmp k' := ⟨k, Nat.le_succ k, rfl⟩
  unfold gprAfter
  cases op.output with
  | none => exact hsame
  | some w =>
    simp only
    split
    · exact ⟨k + 1, le_refl _, gprTmp_succ k⟩
    · split
      · rcases gprViews_tmp w (gprTmp k) with heq | heq
        · rw [heq]
          exact hsame
        · rw [heq]
          exact ⟨k + 1, le_refl _, gprTmp_succ k⟩
      · exact hsame

theorem xmmAfter_tmp (zeroUpper : Bool) (op : PcodeOp) (k : ℕ) :
    ∃ k' ≤ k + 1, (xmmAfter zeroUpper op (xmmTmp k)).2 = xmmTmp k' := by
  have hsame : ∃ k' ≤ k + 1, xmmTmp k = xmmTmp k' := ⟨k, Nat.le_succ k, rfl⟩
  have hnext : ∃ k' ≤ k + 1, xmmTmp k + 0x10 = xmmTmp k' := ⟨k + 1, le_refl _, xmmTmp_succ k⟩
  unfold xmmAfter
  cases op.output with
  | none => exact hsame
  | some w =>
    simp only
    split
    · unfold xmmViews
      split
      · exact hsame
      · cases zeroUpper with
        | true => exact hsame
        | false => exact hnext
      · cases zeroUpper with
        | true => exact hsame
        | false => exact hnext
    · exact hsame

theorem run_spec (sem : PcodeOp → List ℕ → M → ℕ × M) (zeroUpper : Bool) {ops : List PcodeOp}
    (hclean : ∀ op ∈ ops, ∀ v ∈ operands op, Clean n v)
    (hhigh : ∀ op ∈ ops, (∃ v ∈ operands op, highByte v = true) → high = true) {i j : ℕ}
    (hi : i + ops.length ≤ n) (hj : j + ops.length ≤ n) (h : Agrees n s b) (m : M) :
    ∃ marks s', marks.length = (expanded high zeroUpper ops (gprTmp i) (xmmTmp j)).length ∧
      pick marks (expanded high zeroUpper ops (gprTmp i) (xmmTmp j)) = ops ∧
      pick marks (inputsOf perVarnode sem (expanded high zeroUpper ops (gprTmp i) (xmmTmp j))
        (s, m)) = inputsOf (bytewise zeroUpper) sem ops (b, m) ∧
      execAll perVarnode sem (expanded high zeroUpper ops (gprTmp i) (xmmTmp j)) (s, m) =
        (s', (execAll (bytewise zeroUpper) sem ops (b, m)).2) ∧
      Agrees n s' (execAll (bytewise zeroUpper) sem ops (b, m)).1 := by
  induction ops generalizing s b m i j with
  | nil => exact ⟨[], s, rfl, rfl, rfl, rfl, h⟩
  | cons op ops ih =>
    rw [length_cons] at hi hj
    obtain ⟨ht, -, -⟩ := scratch_tmp (show i < n by omega)
    obtain ⟨-, hu, hu'⟩ := scratch_tmp (show j < n by omega)
    obtain ⟨s₁, s₂, hbefore, hins, hafter, h₂⟩ := op_step sem zeroUpper h
      (hclean op mem_cons_self) (hhigh op mem_cons_self) ht hu hu' m
    obtain ⟨i', hi', hgpr⟩ := gprAfter_tmp high op i
    obtain ⟨j', hj', hxmm⟩ := xmmAfter_tmp zeroUpper op j
    obtain ⟨b', m', hnew⟩ : ∃ b' m', exec (bytewise zeroUpper) sem op (b, m) = (b', m') :=
      ⟨_, _, rfl⟩
    rw [hnew] at hafter h₂
    dsimp only at hafter h₂
    have hrun : execAll (bytewise zeroUpper) sem (op :: ops) (b, m) =
        execAll (bytewise zeroUpper) sem ops (b', m') := by
      rw [← hnew]
      rfl
    rw [hrun]
    obtain ⟨marks, s', hlen, hpick, hinputs, hexec, h'⟩ := ih
      (fun op' hop => hclean op' (mem_cons_of_mem _ hop))
      (fun op' hop => hhigh op' (mem_cons_of_mem _ hop)) (i := i') (j := j') (by omega)
      (by omega) h₂ m'
    simp only [expanded, hgpr, hxmm]
    rw [← append_assoc (xmmAfter zeroUpper op (xmmTmp j)).1]
    generalize (xmmAfter zeroUpper op (xmmTmp j)).1 ++ (gprAfter high op (gprTmp i)).1 = views
      at hafter ⊢
    generalize expanded high zeroUpper ops (gprTmp i') (xmmTmp j') = rest
      at hlen hpick hinputs hexec ⊢
    have hwhole : execAll perVarnode sem (before high op ++ op :: (views ++ rest)) (s, m) =
        execAll perVarnode sem rest (s₂, m') := by
      rw [execAll_append, hbefore, execAll_cons, execAll_append, hafter]
    refine ⟨replicate (before high op).length false ++
      true :: (replicate views.length false ++ marks), s', ?_, ?_, ?_, ?_, h'⟩
    · simp only [length_append, length_replicate, length_cons, hlen]
    · rw [pick_skip, pick, pick_skip, hpick]
    · rw [inputsOf_append, inputsOf, inputsOf_append, hbefore, hafter]
      simp only [hins]
      have hfirst := pick_skip (inputsOf perVarnode sem (before high op) (s, m))
        (op.inputs.map (operand (bytewise zeroUpper) b) ::
          (inputsOf perVarnode sem views (exec perVarnode sem op (s₁, m)) ++
            inputsOf perVarnode sem rest (s₂, m')))
        (true :: (replicate views.length false ++ marks))
      rw [length_inputsOf] at hfirst
      have hlast := pick_skip (inputsOf perVarnode sem views (exec perVarnode sem op (s₁, m)))
        (inputsOf perVarnode sem rest (s₂, m')) marks
      rw [length_inputsOf] at hlast
      rw [hfirst, pick, hlast, hinputs, inputsOf, hnew]
    · rw [hwhole, hexec]

end Runs

section Coherence

/-- The whole of the register at an offset. -/
def whole (off : U64) : VarnodeData := reg off (if off.toNat < 0xC0 then 8 else 16)

def ViewsAgree (s : Vars) : Prop :=
  ∀ v, kept v = true → perVarnode.read s v = perVarnode.read s (whole v.offset) % 256 ^ v.size

/-- The start of the register a byte is in. -/
def start (a : ℕ) : ℕ := if a < 0xC0 then a - a % 8 else a - a % 16

/-- The bytes of registers whose views agree. -/
def bytesOf (s : Vars) : Bytewise where
  file a := BitVec.ofNat 8
    (perVarnode.read s (whole (BitVec.ofNat 64 (start a))) / 256 ^ (a - start a))
  vars := s

/-- The ops of an instruction: their operands are kept views, high bytes or parts of no
register file, and none is a temporary of the passes. -/
def InstructionOps (ops : List PcodeOp) : Prop :=
  ∀ op ∈ ops, ∀ v ∈ operands op, Clean ops.length v

structure Coherent (sem : PcodeOp → List ℕ → M → ℕ × M) (zeroUpper : Bool)
    (ops out : List PcodeOp) (s : Vars) (m : M) : Prop where
  inputs : ∃ marks, marks.length = out.length ∧ pick marks out = ops ∧
    pick marks (inputsOf perVarnode sem out (s, m)) =
      inputsOf (bytewise zeroUpper) sem ops (bytesOf s, m)
  agree : ViewsAgree (execAll perVarnode sem out (s, m)).1
  registers : ∀ v, kept v = true → perVarnode.read (execAll perVarnode sem out (s, m)).1 v =
    (bytewise zeroUpper).read (execAll (bytewise zeroUpper) sem ops (bytesOf s, m)).1 v
  others : ∀ v, inFiles v = false → ¬ Scratch ops.length v →
    perVarnode.read (execAll perVarnode sem out (s, m)).1 v =
      (bytewise zeroUpper).read (execAll (bytewise zeroUpper) sem ops (bytesOf s, m)).1 v
  rest : (execAll perVarnode sem out (s, m)).2 =
    (execAll (bytewise zeroUpper) sem ops (bytesOf s, m)).2

theorem word_whole {f : File} {off k x : ℕ} (hle : k ≤ n)
    (h : ∀ i < n, f (off + i) = BitVec.ofNat 8 (x / 256 ^ i)) : word f off k = x % 256 ^ k := by
  have hput : word f off k = word (put f off n x) off k := by
    apply word_congr
    intro i hi hlt
    obtain ⟨j, rfl⟩ := Nat.exists_eq_add_of_le hi
    rw [put, if_pos ⟨hi, by omega⟩, h j (by omega), Nat.add_sub_cancel_left]
  rw [hput, word_put_low _ _ _ hle]

theorem agrees_bytesOf (h : ViewsAgree s) : Agrees n s (bytesOf s) := by
  refine ⟨fun v hv => ?_, fun _ _ _ => rfl⟩
  obtain ⟨-, ⟨hlt, hmod, hsize, -⟩ | ⟨hge, hlt, hmod, hsize⟩⟩ := kept_cases hv
  · rw [h v hv]
    symm
    apply word_whole (n := 8) (by omega)
    intro i hi
    have hstart : start (v.offset.toNat + i) = v.offset.toNat := by
      unfold start
      rw [if_pos (by omega)]
      omega
    simp only [bytesOf, hstart, Nat.add_sub_cancel_left, ofNat_toNat, setWidth_eq]
  · rw [h v hv]
    symm
    apply word_whole (n := 16) (by omega)
    intro i hi
    have hstart : start (v.offset.toNat + i) = v.offset.toNat := by
      unfold start
      rw [if_neg (by omega)]
      omega
    simp only [bytesOf, hstart, Nat.add_sub_cancel_left, ofNat_toNat, setWidth_eq]

theorem viewsAgree_of_agrees (h : Agrees n s b) : ViewsAgree s := by
  intro v hv
  obtain ⟨-, hcase⟩ := kept_cases hv
  have hwhole : kept (whole v.offset) = true ∧ v.size ≤ (whole v.offset).size := by
    rcases hcase with ⟨hlt, hmod, hsize, -⟩ | ⟨hge, hlt, hmod, hsize⟩
    · rw [whole, if_pos hlt]
      refine ⟨?_, by rw [reg_size]; omega⟩
      simp only [kept, gprView, reg, beq_self_eq_true, hlt, decide_true, hmod, Bool.or_true,
        Bool.true_and, Bool.true_or]
    · rw [whole, if_neg (by omega)]
      refine ⟨?_, by rw [reg_size]; omega⟩
      have hbase : xmmBase.toNat = 0x1200 := rfl
      have hbound : v.offset.toNat < 0x1200 + 16 * 0x10 := by omega
      have hzero : ((v.offset.toNat - 0x1200) % 0x10 == 0) = true := beq_iff_eq.mpr hmod
      simp only [kept, xmmView, reg, beq_self_eq_true, hbase, hge, hbound, decide_true, hzero,
        Bool.or_true, Bool.and_self]
  rw [h.view v hv, h.view _ hwhole.1]
  exact (word_mod _ _ hwhole.2).symm

/-- An instruction's lift keeps the views of its registers coherent. -/
theorem views_stay_coherent (sem : PcodeOp → List ℕ → M → ℕ × M) (ops : List PcodeOp)
    (high zeroUpper : Bool) (s : Vars) (m : M) (hops : InstructionOps ops)
    (hhigh : (∃ op ∈ ops, ∃ v ∈ operands op, highByte v = true) → high = true)
    (hs : ViewsAgree s) :
    ∃ out, finishOps ops high zeroUpper = some out ∧ Coherent sem zeroUpper ops out s m := by
  obtain ⟨marks, s', hlen, hpick, hinputs, hexec, h'⟩ :=
    run_spec sem zeroUpper (i := 0) (j := 0) hops (fun op hop hv => hhigh ⟨op, hop, hv⟩)
      (zero_add _).le (zero_add _).le (agrees_bytesOf hs) m
  refine ⟨expanded high zeroUpper ops (gprTmp 0) (xmmTmp 0), finishOps_eq ops high zeroUpper, ?_⟩
  refine ⟨⟨marks, hlen, hpick, hinputs⟩, ?_, fun v hv => ?_, fun v hv hown => ?_, ?_⟩
  · rw [hexec]
    exact viewsAgree_of_agrees h'
  · rw [hexec]
    simp only [bytewise, inFiles_of_kept hv, if_true]
    exact h'.view v hv
  · rw [hexec]
    simp only [bytewise, hv, false_eq_true, if_false]
    exact congrArg Fin.val (h'.other v hv hown)
  · rw [hexec]

/-- `ah` written, then `eax` moved to `xmm0`, every variable zero at first. -/
theorem views_stay_coherent_high : ∃ out, finishOps [⟨.copy, some (reg 1 1), [constant 5 1]⟩,
        ⟨.copy, some (reg 0x1200 4), [reg 0 4]⟩] true false = some out ∧
      Coherent (fun _ ins m => (ins.headD 0, m)) false
        [⟨.copy, some (reg 1 1), [constant 5 1]⟩, ⟨.copy, some (reg 0x1200 4), [reg 0 4]⟩] out
        (fun v => ⟨0, Nat.pow_pos (by decide)⟩) () := by
  refine views_stay_coherent _ _ true false _ () ?_ (fun _ => rfl) ?_
  · intro op hop v hv
    have hclean : ∀ v ∈ [reg 1 1, constant 5 1, reg 0x1200 4, reg 0 4],
        (inFiles v = false ∨ kept v = true ∨ highByte v = true) ∧ v.space ≠ .unique := by
      decide
    have hmem : v ∈ [reg 1 1, constant 5 1, reg 0x1200 4, reg 0 4] := by
      simp only [mem_cons, not_mem_nil, or_false] at hop
      rcases hop with rfl | rfl
      · exact mem_append_left _ hv
      · exact mem_append_right [reg 1 1, constant 5 1] hv
    obtain ⟨hwhere, hspace⟩ := hclean v hmem
    exact ⟨hwhere, fun h => hspace h.1⟩
  · intro v _
    exact (Nat.zero_mod _).symm

end Coherence

end ViewRuns
