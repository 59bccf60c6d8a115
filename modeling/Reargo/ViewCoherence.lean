import Reargo.ViewExpansion

/-!
# The views stay coherent

Each op with its views takes variables that agree with the registers' bytes to variables
that agree with the bytes after the op, and reads what the op reads on the bytes.
-/
namespace ViewCoherence

open PcodeModel RegisterViews ByteFields ViewMachines List

variable {v : VarnodeData}

section Agreement

/-- A view kept coherent: all but the narrow ones of `rsp`. -/
def kept (v : VarnodeData) : Bool :=
  gprView v && (v.offset != 0x20 || v.size == 8) || xmmView v

/-- The temporaries the passes may take for `n` ops. -/
def Scratch (n : ℕ) (v : VarnodeData) : Prop :=
  v.space = .unique ∧ ∃ k < n, v.offset = BitVec.ofNat 64 (0x7e00 + 0x10 * k) ∨
    v.offset = BitVec.ofNat 64 (0x7f00 + 0x10 * k) ∨
    v.offset = BitVec.ofNat 64 (0x7f08 + 0x10 * k)

/-- The variables agree with the bytes, the high bytes' and the temporaries excepted. -/
structure Agrees (n : ℕ) (s : Vars) (b : Bytewise) : Prop where
  view : ∀ v, kept v = true → perVarnode.read s v = word b.file v.offset.toNat v.size
  other : ∀ v, inFiles v = false → ¬ Scratch n v → s v = b.vars v

theorem kept_cases (h : kept v = true) : v.space = .register ∧
    (v.offset.toNat < 0xC0 ∧ v.offset.toNat % 8 = 0 ∧
        (v.size = 1 ∨ v.size = 2 ∨ v.size = 4 ∨ v.size = 8) ∧
        (v.offset = 0x20 → v.size = 8) ∨
      0x1200 ≤ v.offset.toNat ∧ v.offset.toNat < 0x1300 ∧ (v.offset.toNat - 0x1200) % 16 = 0 ∧
        (v.size = 4 ∨ v.size = 8 ∨ v.size = 16)) := by
  have hbase : xmmBase.toNat = 0x1200 := rfl
  simp only [kept, gprView, xmmView, hbase, Bool.or_eq_true, Bool.and_eq_true, beq_iff_eq,
    bne_iff_ne, decide_eq_true_eq] at h
  rcases h with ⟨⟨⟨⟨hspace, hlt⟩, hmod⟩, hsize⟩, hrsp⟩ | ⟨⟨⟨⟨hspace, hge⟩, hlt⟩, hmod⟩, hsize⟩
  · refine ⟨hspace, .inl ⟨hlt, hmod, ?_, fun h => hrsp.resolve_left (not_not.mpr h)⟩⟩
    simpa only [or_assoc] using hsize
  · refine ⟨hspace, .inr ⟨hge, hlt, hmod, ?_⟩⟩
    simpa only [or_assoc] using hsize

theorem inFiles_of_kept (h : kept v = true) : inFiles v = true := by
  have hbase : xmmBase.toNat = 0x1200 := rfl
  obtain ⟨hspace, hgpr | hxmm⟩ := kept_cases h
  · simp only [inFiles, hspace, hgpr.1, decide_true, beq_self_eq_true, Bool.true_or, Bool.and_true]
  · simp only [inFiles, hspace, hbase, hxmm.1, decide_true, beq_self_eq_true, Bool.true_and,
      Bool.or_eq_true, decide_eq_true_eq]
    exact .inr (by omega)

end Agreement

variable {ops : List PcodeOp}

section Added

variable {M : Type} {sem : PcodeOp → List ℕ → M → ℕ × M}

section

variable (sem : PcodeOp → List ℕ → M → ℕ × M) (out : VarnodeData)

theorem exec_subpiece {a : VarnodeData}
    {k : U64} (ha : a.space ≠ .const) (s : Vars) (m : M) :
    exec perVarnode sem (mk .subpiece out [a, constant k 4]) (s, m) =
      (perVarnode.write s out (perVarnode.read s a / 256 ^ k.toNat % 256 ^ out.size), m) := by
  have hconst : operand perVarnode s (constant k 4) = k.toNat := rfl
  have hread : operand perVarnode s a = perVarnode.read s a := if_neg ha
  simp only [exec, mk, map_cons, map_nil, hconst, hread, value]

theorem exec_piece {a low : VarnodeData}
    (ha : a.space ≠ .const) (hlow : low.space ≠ .const) (s : Vars) (m : M) :
    exec perVarnode sem (mk .piece out [a, low]) (s, m) =
      (perVarnode.write s out ((perVarnode.read s a * 256 ^ low.size + perVarnode.read s low) %
        256 ^ out.size), m) := by
  have hread : operand perVarnode s a = perVarnode.read s a := if_neg ha
  have hread' : operand perVarnode s low = perVarnode.read s low := if_neg hlow
  simp only [exec, mk, map_cons, map_nil, hread, hread', value]

theorem exec_zext {a : VarnodeData} (ha : a.space ≠ .const) (s : Vars) (m : M) :
    exec perVarnode sem (mk .intZExt out [a]) (s, m) =
      (perVarnode.write s out (perVarnode.read s a % 256 ^ out.size), m) := by
  have hread : operand perVarnode s a = perVarnode.read s a := if_neg ha
  simp only [exec, mk, map_cons, map_nil, hread, value]

end

theorem execAll_cons (op : PcodeOp) (ops : List PcodeOp) (s : Vars × M) :
    execAll perVarnode sem (op :: ops) s = execAll perVarnode sem ops (exec perVarnode sem op s) :=
  rfl

theorem read_write_reg (s : Vars) (off : U64) (a k x : ℕ) :
    perVarnode.read (perVarnode.write s (reg off a) x) (reg off k) =
      if k = a then x % 256 ^ k else perVarnode.read s (reg off k) := by
  simp only [read_write, reg, VarnodeData.mk.injEq, true_and]

theorem read_write_unique (s : Vars) (off tmp : U64) (j k x : ℕ) :
    perVarnode.read (perVarnode.write s (unique tmp j) x) (reg off k) =
      perVarnode.read s (reg off k) := by
  rw [read_write, if_neg fun h => by cases congrArg VarnodeData.space h]

theorem reg_size (off : U64) (k : ℕ) : (reg off k).size = k := rfl

theorem reg_offset (off : U64) (k : ℕ) : (reg off k).offset = off := rfl

theorem unique_size (off : U64) (k : ℕ) : (unique off k).size = k := rfl

theorem reg_ne_const (off : U64) (a : ℕ) : (reg off a).space ≠ .const := nofun

theorem unique_ne_const (off : U64) (a : ℕ) : (unique off a).space ≠ .const := nofun

theorem exec_other {op : PcodeOp} (h : op.output ≠ some v) (s : Vars × M) :
    (exec perVarnode sem op s).1 v = s.1 v := by
  simp only [exec]
  cases ho : op.output with
  | none => rfl
  | some out =>
    have hne : v ≠ out := fun heq => h (by rw [ho, heq])
    exact Function.update_of_ne hne _ _

theorem execAll_other (h : ∀ op ∈ ops, op.output ≠ some v) (s : Vars × M) :
    (execAll perVarnode sem ops s).1 v = s.1 v := by
  induction ops generalizing s with
  | nil => rfl
  | cons op ops ih =>
    rw [execAll_cons, ih (fun op' hop => h op' (mem_cons_of_mem _ hop)),
      exec_other (h op mem_cons_self)]

end Added

section Fresh

variable {M : Type} {sem : PcodeOp → List ℕ → M → ℕ × M} {P : Vars → Prop}

/-- The ops take variables of one kind to another, and leave the rest of the machine. -/
def Runs (sem : PcodeOp → List ℕ → M → ℕ × M) (ops : List PcodeOp) (P Q : Vars → Prop) : Prop :=
  ∀ s m, P s → ∃ s', execAll perVarnode sem ops (s, m) = (s', m) ∧ Q s'

theorem Runs.nil : Runs sem [] P P := fun s _ h => ⟨s, rfl, h⟩

theorem Runs.append {rest : List PcodeOp} {Q R : Vars → Prop} (h : Runs sem ops P Q)
    (k : Runs sem rest Q R) : Runs sem (ops ++ rest) P R := by
  intro s m hs
  obtain ⟨s₁, hexec₁, hs₁⟩ := h s m hs
  obtain ⟨s₂, hexec₂, hs₂⟩ := k s₁ m hs₁
  exact ⟨s₂, by rw [execAll_append, hexec₁, hexec₂], hs₂⟩

structure Fresh (off : U64) (sizes : List ℕ) (full old : ℕ) (done : List ℕ) (s : Vars) : Prop where
  fresh : ∀ k ∈ done, perVarnode.read s (reg off k) = full % 256 ^ k
  stale : ∀ k ∈ sizes, k ∉ done → perVarnode.read s (reg off k) = old % 256 ^ k

variable {off tmp : U64} {sizes done : List ℕ} {full old a b : ℕ}

theorem Fresh.write {s : Vars} {x : ℕ} (h : Fresh off sizes full old done s)
    (hx : x % 256 ^ a = full % 256 ^ a) :
    Fresh off sizes full old (a :: done) (perVarnode.write s (reg off a) x) := by
  constructor
  · intro k hk
    rw [read_write_reg]
    split
    next heq =>
      rw [heq]
      exact hx
    next hne => exact h.fresh k ((mem_cons.mp hk).resolve_left hne)
  · intro k hk hdone
    rw [mem_cons, not_or] at hdone
    rw [read_write_reg, if_neg hdone.1]
    exact h.stale k hk hdone.2

theorem Fresh.temporary {s : Vars} (h : Fresh off sizes full old done s) (tmp : U64) (k x : ℕ) :
    Fresh off sizes full old done (perVarnode.write s (unique tmp k) x) := by
  constructor
  · intro k hk
    rw [read_write_unique]
    exact h.fresh k hk
  · intro k hk hdone
    rw [read_write_unique]
    exact h.stale k hk hdone

theorem runs_low (ha : a ∈ done) (hle : b ≤ a) :
    Runs sem [mk .subpiece (reg off b) [reg off a, constant 0 4]]
      (Fresh off sizes full old done) (Fresh off sizes full old (b :: done)) := by
  intro s m h
  refine ⟨_, exec_subpiece sem _ (reg_ne_const _ _) s m, h.write ?_⟩
  have hzero : (0 : U64).toNat = 0 := rfl
  rw [h.fresh a ha, hzero, pow_zero, Nat.div_one, reg_size, Nat.mod_mod,
    Nat.mod_mod_of_dvd _ (pow_dvd_pow 256 hle)]

theorem runs_zext (hb : b ∈ done) (hfull : full < 256 ^ b) :
    Runs sem [mk .intZExt (reg off a) [reg off b]]
      (Fresh off sizes full old done) (Fresh off sizes full old (a :: done)) := by
  intro s m h
  refine ⟨_, exec_zext sem _ (reg_ne_const _ _) s m, h.write ?_⟩
  rw [h.fresh b hb, Nat.mod_eq_of_lt hfull, reg_size, Nat.mod_mod]

theorem runs_piece {k : U64} (hb : b ∈ done) (ha : a ∈ sizes) (hna : a ∉ done) (hle : b ≤ a)
    (hk : k.toNat = b) (hupper : old % 256 ^ a / 256 ^ b = full % 256 ^ a / 256 ^ b) :
    Runs sem [mk .subpiece (unique tmp (a - b)) [reg off a, constant k 4],
        mk .piece (reg off a) [unique tmp (a - b), reg off b]]
      (Fresh off sizes full old done) (Fresh off sizes full old (a :: done)) := by
  intro s m h
  have hfirst := exec_subpiece sem (unique tmp (a - b)) (k := k) (reg_ne_const off a) s m
  have hhi := h.temporary tmp (a - b)
    (perVarnode.read s (reg off a) / 256 ^ k.toNat % 256 ^ (unique tmp (a - b)).size)
  have hsecond := exec_piece sem (reg off a) (unique_ne_const tmp (a - b))
    (reg_ne_const off b) (perVarnode.write s (unique tmp (a - b))
      (perVarnode.read s (reg off a) / 256 ^ k.toNat % 256 ^ (unique tmp (a - b)).size)) m
  refine ⟨_, (congrArg (exec perVarnode sem _) hfirst).trans hsecond, hhi.write ?_⟩
  have hpow : 256 ^ a = 256 ^ b * 256 ^ (a - b) := by rw [← pow_add, Nat.add_sub_of_le hle]
  have hlt : old % 256 ^ a / 256 ^ b < 256 ^ (a - b) := by
    apply Nat.div_lt_of_lt_mul
    rw [← hpow]
    exact Nat.mod_lt _ (Nat.pow_pos (by decide))
  rw [read_write, if_pos rfl, hhi.fresh b hb, h.stale a ha hna, hk, unique_size, reg_size,
      reg_size, Nat.mod_mod, Nat.mod_mod, Nat.mod_eq_of_lt hlt, hupper,
      ← Nat.mod_mod_of_dvd full (pow_dvd_pow 256 hle), mul_comm, Nat.div_add_mod, Nat.mod_mod]

/-- All the views are of the word `full`. -/
def AllFresh (off : U64) (sizes : List ℕ) (full : ℕ) (s : Vars) : Prop :=
  ∀ k ∈ sizes, perVarnode.read s (reg off k) = full % 256 ^ k

theorem Runs.allFresh
    (h : Runs sem ops P (Fresh off sizes full old done)) (hall : ∀ k ∈ sizes, k ∈ done) :
    Runs sem ops P (AllFresh off sizes full) := by
  intro s m hs
  obtain ⟨s', hexec, hfresh⟩ := h s m hs
  exact ⟨s', hexec, fun k hk => hfresh.fresh k (hall k hk)⟩

end Fresh

section Lists

variable {M : Type} {sem : PcodeOp → List ℕ → M → ℕ × M} {off tmp : U64} {full old size : ℕ}

/-- The views of a general register that are kept. -/
def gprSizes (off : U64) : List ℕ := if off = 0x20 then [8] else [1, 2, 4, 8]

/-- The rebuild of a wider view from one just written. -/
def rebuilt (off tmp : U64) (a b : ℕ) : List PcodeOp :=
  [mk .subpiece (unique tmp (a - b)) [reg off a, constant (BitVec.ofNat 64 b) 4],
    mk .piece (reg off a) [unique tmp (a - b), reg off b]]

def narrowed (off : U64) (a b : ℕ) : List PcodeOp :=
  [mk .subpiece (reg off b) [reg off a, constant 0 4]]

def extended (off : U64) (a b : ℕ) : List PcodeOp := [mk .intZExt (reg off a) [reg off b]]

theorem gprViews_narrow (hoff : off ≠ 0x20) (hsize : size = 1 ∨ size = 2) :
    (gprViews (reg off size) tmp).1 =
      rebuilt off tmp 8 size ++ (narrowed off 8 4 ++ narrowed off 8 (3 - size)) := by
  have hflag : (off == 0x20) = false := beq_false_of_ne hoff
  simp only [gprViews, reg_size, reg_offset, hflag]
  rcases hsize with rfl | rfl
  · rfl
  · rfl

theorem gprViews_four (hoff : off ≠ 0x20) : (gprViews (reg off 4) tmp).1 =
    extended off 8 4 ++ (narrowed off 4 2 ++ narrowed off 4 1) := by
  have hflag : (off == 0x20) = false := beq_false_of_ne hoff
  simp only [gprViews, reg_size, reg_offset, hflag]
  rfl

theorem gprViews_eight (hoff : off ≠ 0x20) : (gprViews (reg off 8) tmp).1 =
    narrowed off 8 4 ++ (narrowed off 8 2 ++ narrowed off 8 1) := by
  have hflag : (off == 0x20) = false := beq_false_of_ne hoff
  simp only [gprViews, reg_size, reg_offset, hflag]
  rfl

theorem runs_narrowed {sizes done : List ℕ} {a b : ℕ} (ha : a ∈ done) (hle : b ≤ a) :
    Runs sem (narrowed off a b) (Fresh off sizes full old done)
      (Fresh off sizes full old (b :: done)) := runs_low ha hle

theorem gprViews_runs (hsize : size = 1 ∨ size = 2 ∨ size = 4 ∨ size = 8)
    (hrsp : off = 0x20 → size = 8) (hfour : size = 4 → full < 256 ^ 4)
    (hupper : size < 4 → old % 256 ^ 8 / 256 ^ size = full % 256 ^ 8 / 256 ^ size) :
    Runs sem (gprViews (reg off size) tmp).1 (Fresh off (gprSizes off) full old [size])
      (AllFresh off (gprSizes off) full) := by
  by_cases hoff : off = 0x20
  · have height := hrsp hoff
    subst height hoff
    exact Runs.nil.allFresh (by decide)
  · rw [gprSizes, if_neg hoff]
    have hnarrow : size = 1 ∨ size = 2 → Runs sem (gprViews (reg off size) tmp).1
        (Fresh off [1, 2, 4, 8] full old [size]) (AllFresh off [1, 2, 4, 8] full) := by
      intro hlow
      rw [gprViews_narrow hoff hlow]
      refine .allFresh (.append (Q := Fresh off [1, 2, 4, 8] full old [8, size]) ?_
        (.append (runs_narrowed (a := 8) (b := 4) ?_ ?_)
          (runs_narrowed (a := 8) (b := 3 - size) ?_ ?_))) ?_
      · apply runs_piece
        · exact mem_singleton_self size
        · decide
        · rcases hlow with rfl | rfl <;> decide
        · omega
        · rcases hlow with rfl | rfl <;> rfl
        · exact hupper (by omega)
      · exact mem_cons_self
      · decide
      · exact mem_cons_of_mem _ mem_cons_self
      · omega
      · rcases hlow with rfl | rfl <;> decide
    rcases hsize with rfl | rfl | rfl | rfl
    · exact hnarrow (.inl rfl)
    · exact hnarrow (.inr rfl)
    · rw [gprViews_four hoff]
      refine .allFresh (.append (runs_zext (a := 8) ?_ (hfour rfl))
        (.append (runs_narrowed (a := 4) (b := 2) ?_ ?_)
          (runs_narrowed (a := 4) (b := 1) ?_ ?_))) ?_
      all_goals decide
    · rw [gprViews_eight hoff]
      refine .allFresh (.append (runs_narrowed (a := 8) (b := 4) ?_ ?_)
        (.append (runs_narrowed (a := 8) (b := 2) ?_ ?_)
          (runs_narrowed (a := 8) (b := 1) ?_ ?_))) ?_
      all_goals decide

theorem xmmViews_runs {zeroUpper : Bool} (hsize : size = 4 ∨ size = 8 ∨ size = 16)
    (hzero : zeroUpper = true → full < 256 ^ size)
    (hupper : zeroUpper = false → ∀ a, size ≤ a → a ≤ 16 →
      old % 256 ^ a / 256 ^ size = full % 256 ^ a / 256 ^ size) :
    Runs sem (xmmViews zeroUpper (reg off size) tmp).1 (Fresh off [4, 8, 16] full old [size])
      (AllFresh off [4, 8, 16] full) := by
  rcases hsize with rfl | rfl | rfl
  · cases zeroUpper with
    | true =>
      change Runs sem (extended off 8 4 ++ extended off 16 4) _ _
      refine .allFresh (.append (runs_zext (a := 8) (b := 4) ?_ (hzero rfl))
        (runs_zext (a := 16) (b := 4) ?_ (hzero rfl))) ?_
      all_goals decide
    | false =>
      have hlow := hupper rfl 8 (by decide) (by decide)
      have hhigh : old % 256 ^ 16 / 256 ^ 8 = full % 256 ^ 16 / 256 ^ 8 := by
        have hall := congrArg (· / 256 ^ 4) (hupper rfl 16 (by decide) (by decide))
        simpa only [Nat.div_div_eq_div_mul, ← pow_add] using hall
      change Runs sem (rebuilt off tmp 8 4 ++ rebuilt off (tmp + 8) 16 8) _ _
      refine .allFresh (.append (runs_piece (a := 8) (b := 4) ?_ ?_ ?_ ?_ rfl hlow)
        (runs_piece (a := 16) (b := 8) ?_ ?_ ?_ ?_ rfl hhigh)) ?_
      all_goals decide
  · cases zeroUpper with
    | true =>
      change Runs sem (narrowed off 8 4 ++ extended off 16 8) _ _
      refine .allFresh (.append (runs_narrowed (a := 8) (b := 4) ?_ ?_)
        (runs_zext (a := 16) (b := 8) ?_ (hzero rfl))) ?_
      all_goals decide
    | false =>
      change Runs sem (narrowed off 8 4 ++ rebuilt off tmp 16 8) _ _
      refine .allFresh (.append (runs_narrowed (a := 8) (b := 4) ?_ ?_)
        (runs_piece (a := 16) (b := 8) ?_ ?_ ?_ ?_ rfl (hupper rfl 16 ?_ ?_))) ?_
      all_goals decide
  · change Runs sem (narrowed off 16 8 ++ narrowed off 16 4) _ _
    refine .allFresh (.append (runs_narrowed (a := 16) (b := 8) ?_ ?_)
      (runs_narrowed (a := 16) (b := 4) ?_ ?_)) ?_
    all_goals decide

theorem highViews_runs {h : VarnodeData} (hspace : h.space = .register) {x : ℕ}
    (hoff : h.offset - 1 = off)
    (htwo : (x * 256 + full % 256) % 256 ^ 2 = full % 256 ^ 2)
    (hupper : old % 256 ^ 8 / 256 ^ 2 = full % 256 ^ 8 / 256 ^ 2) :
    Runs sem (highViews h tmp).1
      (fun s => Fresh off [1, 2, 4, 8] full old [1] s ∧ perVarnode.read s h = x)
      (AllFresh off [1, 2, 4, 8] full) := by
  have hfirst : Runs sem [mk .piece (reg off 2) [h, reg off 1]]
      (fun s => Fresh off [1, 2, 4, 8] full old [1] s ∧ perVarnode.read s h = x)
      (Fresh off [1, 2, 4, 8] full old [2, 1]) := by
    intro s m hs
    have hne : h.space ≠ .const := by
      rw [hspace]
      decide
    refine ⟨_, exec_piece sem _ hne (reg_ne_const _ _) s m, hs.1.write ?_⟩
    rw [hs.2, hs.1.fresh 1 (by decide), reg_size, reg_size, Nat.mod_mod, pow_one, htwo]
  have hlist : (highViews h tmp).1 = [mk .piece (reg off 2) [h, reg off 1]] ++
      (rebuilt off tmp 8 2 ++ narrowed off 8 4) := by
    simp only [highViews, hoff]
    rfl
  rw [hlist]
  refine .allFresh (.append hfirst (.append (runs_piece (a := 8) (b := 2) ?_ ?_ ?_ ?_ rfl hupper)
    (runs_narrowed (a := 8) (b := 4) ?_ ?_))) ?_
  all_goals decide

end Lists

section Outputs

variable {M : Type} {sem : PcodeOp → List ℕ → M → ℕ × M} {n : ℕ} {off tmp : U64}

def Within (n : ℕ) (off : U64) (op : PcodeOp) : Prop :=
  ∃ out, op.output = some out ∧
    (out.space = .register ∧ out.offset = off ∨ Scratch n out)

theorem within_reg (off : U64) (k : ℕ) (opcode : OpCode) (ins : List VarnodeData) :
    Within n off (mk opcode (reg off k) ins) := ⟨_, rfl, .inl ⟨rfl, rfl⟩⟩

/-- Whatever the size, a temporary is one by its offset. -/
theorem within_unique (h : Scratch n (unique tmp 0)) (k : ℕ) (opcode : OpCode)
    (ins : List VarnodeData) : Within n off (mk opcode (unique tmp k) ins) := ⟨_, rfl, .inr h⟩

theorem rest_of_within (off : U64) (h : ∀ op ∈ ops, Within n off op)
    (sem : PcodeOp → List ℕ → M → ℕ × M) (s : Vars × M)
    (hv : ¬ (v.space = .register ∧ v.offset = off))
    (hs : ¬ Scratch n v) : (execAll perVarnode sem ops s).1 v = s.1 v := by
  apply execAll_other
  intro op hop heq
  obtain ⟨out, hout, hat⟩ := h op hop
  rw [heq] at hout
  cases hout
  rcases hat with hat | hat
  · exact hv hat
  · exact hs hat

theorem within_gprViews (size : ℕ) (h : Scratch n (unique tmp 0)) :
    ∀ op ∈ (gprViews (reg off size) tmp).1, Within n off op := by
  simp only [gprViews, reg_size, reg_offset]
  by_cases hoff : (off == 0x20) = true
  · simp only [hoff, Bool.not_true, Bool.false_eq_true, if_false]
    split
    · nofun
    · simp only [forall_mem_cons, within_reg, true_and]
      nofun
    · nofun
  · simp only [Bool.eq_false_iff.mpr hoff, Bool.not_false, if_true]
    split
    · simp only [forall_mem_cons, within_reg, true_and]
      nofun
    · simp only [forall_mem_cons, within_reg, true_and]
      nofun
    · simp only [forall_mem_cons, within_reg, within_unique h, true_and]
      nofun

theorem within_xmmViews (zeroUpper : Bool) (size : ℕ) (h : Scratch n (unique tmp 0))
    (h' : Scratch n (unique (tmp + 8) 0)) :
    ∀ op ∈ (xmmViews zeroUpper (reg off size) tmp).1, Within n off op := by
  simp only [xmmViews, reg_size, reg_offset]
  cases zeroUpper with
  | true =>
    simp only [if_true]
    split
    · simp only [forall_mem_cons, within_reg, true_and]
      nofun
    · simp only [forall_mem_cons, within_reg, true_and]
      nofun
    · simp only [forall_mem_cons, within_reg, true_and]
      nofun
  | false =>
    simp only [Bool.false_eq_true, if_false]
    split
    · simp only [forall_mem_cons, within_reg, true_and]
      nofun
    · simp only [forall_mem_cons, within_reg, within_unique h, true_and]
      nofun
    · simp only [forall_mem_cons, within_reg, within_unique h, within_unique h', true_and]
      nofun

theorem within_highViews {w : VarnodeData} (hoff : w.offset - 1 = off)
    (h : Scratch n (unique tmp 0)) : ∀ op ∈ (highViews w tmp).1, Within n off op := by
  simp only [highViews, hoff, forall_mem_cons, within_reg, within_unique h, true_and]
  nofun

end Outputs

end ViewCoherence
