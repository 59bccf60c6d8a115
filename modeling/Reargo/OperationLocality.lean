import Reargo.EmulatorOps

/-!
# What an operation reads and writes

An operation sees its operands (their sizes, constants and values), the size of its
output and, in a load, main memory. What comes of it is one effect: it stops, leaves the
state alone, writes its output or writes the location a store names. Two operations that
see the same have the same effect, each on its own output.
-/
namespace OperationLocality

open PcodeModel EmulatorMemory EmulatorOps LittleEndian PageAccess Option

/-- A byte of an address space that lies in a varnode. -/
def Covers (vn : VarnodeData) (sp : SpaceId) (a : U64) : Prop :=
  sp = vn.space ∧ (a - vn.offset).toNat < vn.size

theorem loadBytes_congr {m m' : U64 → Byte} {a a' : U64} {n : ℕ}
    (h : ∀ i < n, m (a + BitVec.ofNat 64 i) = m' (a' + BitVec.ofNat 64 i)) :
    loadBytes m a n = loadBytes m' a' n :=
  List.map_congr_left fun i hi => h i (List.mem_range.mp hi)

variable {vn : VarnodeData}

theorem covers_of_lt {i : ℕ} (h : i < vn.size) :
    Covers vn vn.space (vn.offset + BitVec.ofNat 64 i) := by
  refine ⟨rfl, ?_⟩
  rw [BitVec.add_comm, BitVec.add_sub_cancel, BitVec.toNat_ofNat]
  exact lt_of_le_of_lt (Nat.mod_le _ _) h

theorem readWide_congr {s s' : EmulatorState}
    (h : ∀ sp a, Covers vn sp a → s.bytes sp a = s'.bytes sp a) :
    s.readWide vn = s'.readWide vn := by
  by_cases hc : vn.space = .const
  · simp [EmulatorState.readWide, PageAccess.readWide, PageAccess.readVarnode, hc]
  · have hcells : ∀ i < min vn.size 16, EmulatorState.access.byte s vn.space
        (vn.offset + BitVec.ofNat 64 i) =
          EmulatorState.access.byte s' vn.space (vn.offset + BitVec.ofNat 64 i) :=
      fun i hi => h _ _ (covers_of_lt (by omega))
    simp only [EmulatorState.readWide, readWide_eq hc, loadBytes_congr hcells]

theorem readVarnode_eq_readWide (s : EmulatorState) (vn : VarnodeData) :
    s.readVarnode vn = (s.readWide vn).setWidth 64 := by
  unfold EmulatorState.readVarnode EmulatorState.readWide PageAccess.readWide
  split
  · simp
  · next h =>
    have hc : vn.space ≠ .const := fun hc => h (.inr hc)
    have hlow : (⟨vn.space, vn.offset, 8⟩ : VarnodeData).space ≠ .const := hc
    have hword : EmulatorState.access.readVarnode s ⟨vn.space, vn.offset, 8⟩ =
        EmulatorState.access.readVarnode s vn := by
      rw [readVarnode_eq hlow, readVarnode_eq hc, min_self,
        min_eq_right (by omega : 8 ≤ vn.size)]
    rw [hword]
    ext i hi
    simp

variable {bs : List Byte}

theorem stored_apply (h : bs.length ≤ 16) (m : SpaceId → U64 → Byte)
    (sp p : SpaceId) (a off : U64) :
    stored m p off bs sp a = if sp = p then (bs[(a - off).toNat]?).getD (m sp a) else m sp a := by
  have hlen : bs.length ≤ 2 ^ 64 := h.trans (by norm_num)
  by_cases hsp : sp = p
  · subst hsp
    simp [stored, storeBytes_apply _ _ _ _ hlen]
  · simp [stored, hsp]

/-- The bytes a write to a varnode stores: a word of it at least, no more than it has. -/
structure Fits (bs : List Byte) (vn : VarnodeData) : Prop where
  full : min vn.size 8 ≤ bs.length
  within : bs.length ≤ vn.size
  short : bs.length ≤ 16

theorem Fits.congr {vn' : VarnodeData} (h : Fits bs vn) (hsize : vn'.size = vn.size) : Fits bs vn' :=
  ⟨hsize ▸ h.full, hsize ▸ h.within, h.short⟩

theorem Fits.frame (h : Fits bs vn)
    (m : SpaceId → U64 → Byte) {sp : SpaceId} {a : U64} (hout : ¬ Covers vn sp a) :
    stored m vn.space vn.offset bs sp a = m sp a := by
  rw [stored_apply h.short]
  by_cases hsp : sp = vn.space
  · have hge : vn.size ≤ (a - vn.offset).toNat := not_lt.mp fun hlt => hout ⟨hsp, hlt⟩
    rw [if_pos hsp, List.getElem?_eq_none (h.within.trans hge), getD_none]
  · rw [if_neg hsp]

theorem Fits.stored_congr (h : Fits bs vn)
    {m m' : SpaceId → U64 → Byte} {sp : SpaceId} {a : U64} (hm : m sp a = m' sp a) :
    stored m vn.space vn.offset bs sp a = stored m' vn.space vn.offset bs sp a := by
  rw [stored_apply h.short, stored_apply h.short, hm]

/-- What an operation sees of an input. -/
structure Operand where
  size : ℕ
  const : Option U64
  value : U128
  deriving DecidableEq

def operand (s : EmulatorState) (vn : VarnodeData) : Operand where
  size := vn.size
  const := if vn.space = .const then some vn.offset else none
  value := s.readWide vn

/-- What the operations left to a parameter do with their output. -/
inductive Outcome where
  | left
  | word (v : U64)
  | wide (v : U128)
  deriving DecidableEq

/-- A floating-point operation or an intrinsic, by its code, the size of its output and its
operands. -/
abbrev Intrinsics := OpCode → Option ℕ → List Operand → Except EmulatorError Outcome

def Intrinsics.outcome (g : Intrinsics) (s : EmulatorState) (op : PcodeOp) :
    Except EmulatorError Outcome :=
  g op.opcode (op.output.map VarnodeData.size) (op.inputs.map (operand s))

def Intrinsics.run (g : Intrinsics) : Uninterpreted := fun s op => do
  match ← g.outcome s op with
  | .left => return s
  | .word v => do
    let out ← needOutput op
    return s.writeVarnode out v
  | .wide v => do
    let out ← needOutput op
    return s.writeWide out v

def isIntrinsic (opcode : OpCode) : Bool := isFloatOpcode opcode || opcode = .callOther

inductive Effect where
  | stop
  | keep
  | output (bs : List Byte)
  | store (vn : VarnodeData) (bs : List Byte)

def Effect.Of (s : EmulatorState) (out : Option VarnodeData) (x : Result) : Effect → Prop
  | .stop => ∃ e, x = .error e
  | .keep => ∃ t, x = .ok t ∧ t.bytes = s.bytes
  | .output bs => ∃ t vn, x = .ok t ∧ out = some vn ∧ Fits bs vn ∧
      t.bytes = stored s.bytes vn.space vn.offset bs
  | .store vn bs => ∃ t, x = .ok t ∧ Fits bs vn ∧ t.bytes = stored s.bytes vn.space vn.offset bs

/-- Two results with one effect, among those allowed. -/
def Local (A : Effect → Prop) (s s' : EmulatorState) (out out' : Option VarnodeData)
    (x x' : Result) : Prop :=
  ∃ e, A e ∧ e.Of s out x ∧ e.Of s' out' x'

/-- Two operations that see the same. -/
structure Twin (s s' : EmulatorState) (op op' : PcodeOp) : Prop where
  opcode : op'.opcode = op.opcode
  output : op'.output.map VarnodeData.size = op.output.map VarnodeData.size
  inputs : op'.inputs.map (operand s') = op.inputs.map (operand s)
  ram : s'.bytes .ram = s.bytes .ram

section Combinators

variable {A : Effect → Prop} {s s' : EmulatorState} {op op' : PcodeOp}
  {out out' : Option VarnodeData}

theorem Local.stop (hA : A .stop) (e e' : EmulatorError) :
    Local A s s' out out' (.error e) (.error e') :=
  ⟨.stop, hA, ⟨e, rfl⟩, ⟨e', rfl⟩⟩

theorem Local.keep (hA : A .keep) : Local A s s' out out' (.ok s) (.ok s') :=
  ⟨.keep, hA, ⟨s, rfl, rfl⟩, ⟨s', rfl, rfl⟩⟩

theorem fits_toLeBytes {w : ℕ} (vn : VarnodeData) (v : BitVec w) {n : ℕ} (h8 : 8 ≤ n)
    (h16 : n ≤ 16) : Fits (toLeBytes (min vn.size n) v) vn := by
  constructor <;> rw [length_toLeBytes] <;> omega

theorem Local.word (hA : ∀ bs, A (.output bs)) {vn' : VarnodeData} (hsize : vn'.size = vn.size)
    (v : U64) :
    Local A s s' (some vn) (some vn') (.ok (s.writeVarnode vn v)) (.ok (s'.writeVarnode vn' v)) := by
  have hfit : Fits (toLeBytes (min vn.size 8) v) vn := fits_toLeBytes vn v le_rfl (by norm_num)
  refine ⟨.output _, hA _, ⟨_, vn, rfl, rfl, hfit, s.bytes_writeVarnode vn v⟩,
    ⟨_, vn', rfl, rfl, hfit.congr hsize, ?_⟩⟩
  rw [s'.bytes_writeVarnode, hsize]

theorem Local.wide (hA : ∀ bs, A (.output bs)) {vn' : VarnodeData} (hsize : vn'.size = vn.size)
    (v : U128) :
    Local A s s' (some vn) (some vn') (.ok (s.writeWide vn v)) (.ok (s'.writeWide vn' v)) := by
  have hfit : Fits (toLeBytes (min vn.size 16) v) vn := fits_toLeBytes vn v (by norm_num) le_rfl
  refine ⟨.output _, hA _, ⟨_, vn, rfl, rfl, hfit, s.bytes_writeWide vn v⟩,
    ⟨_, vn', rfl, rfl, hfit.congr hsize, ?_⟩⟩
  rw [s'.bytes_writeWide, hsize]

theorem Twin.input (t : Twin s s' op op') (i : ℕ) :
    (op'.input i).map (operand s') = (op.input i).map (operand s) := by
  simp only [PcodeOp.input, ← List.getElem?_map, t.inputs]

/-- An input is missing from both operations, or both see the same in it. -/
theorem Twin.input_cases (t : Twin s s' op op') (i : ℕ) : (op.input i = none ∧ op'.input i = none) ∨
      ∃ v v', op.input i = some v ∧ op'.input i = some v' ∧ operand s' v' = operand s v := by
  have h := t.input i
  cases hv : op.input i with
  | none => rw [hv] at h; simp_all
  | some v =>
    rw [hv, map_some, map_eq_some_iff] at h
    obtain ⟨v', hv', heq⟩ := h
    exact .inr ⟨v, v', rfl, hv', heq⟩

theorem size_of_operand {v v' : VarnodeData} (h : operand s' v' = operand s v) :
    v'.size = v.size := congrArg Operand.size h

theorem readWide_of_operand {v v' : VarnodeData} (h : operand s' v' = operand s v) :
    s'.readWide v' = s.readWide v := congrArg Operand.value h

theorem readVarnode_of_operand {v v' : VarnodeData} (h : operand s' v' = operand s v) :
    s'.readVarnode v' = s.readVarnode v := by
  rw [readVarnode_eq_readWide, readVarnode_eq_readWide, readWide_of_operand h]

section

variable (t : Twin s s' op op')

include t

theorem Local.output {F F' : VarnodeData → Result} (hA : A .stop)
    (h : ∀ vn vn', op.output = some vn → op'.output = some vn' → vn'.size = vn.size →
    Local A s s' (some vn) (some vn') (F vn) (F' vn')) :
    Local A s s' op.output op'.output (needOutput op >>= F) (needOutput op' >>= F') := by
  have hsize := t.output
  cases ho : op.output with
  | none =>
    have ho' : op'.output = none := by simpa [ho] using hsize
    simp only [needOutput, ho, ho']
    exact .stop hA _ _
  | some vn =>
    rw [ho, map_some, map_eq_some_iff] at hsize
    obtain ⟨vn', ho', hsize⟩ := hsize
    simp only [needOutput, ho, ho']
    exact h vn vn' ho ho' hsize

theorem Local.input {F F' : VarnodeData → Result} (hA : A .stop) (i : ℕ)
    (h : ∀ v v', op.input i = some v → operand s' v' = operand s v →
    Local A s s' out out' (F v) (F' v')) :
    Local A s s' out out' (needInput op i >>= F) (needInput op' i >>= F') := by
  rcases t.input_cases i with ⟨hv, hv'⟩ | ⟨v, v', hv, hv', heq⟩
  · simp only [needInput, hv, hv']
    exact .stop hA _ _
  · simp only [needInput, hv, hv']
    exact h v v' hv heq

theorem Local.read {F F' : U64 → Result} (hA : A .stop) (i : ℕ) (h : ∀ v, op.input i = some v →
    Local A s s' out out' (F (s.readVarnode v)) (F' (s.readVarnode v))) :
    Local A s s' out out' (readInput s op i >>= F) (readInput s' op' i >>= F') := by
  rcases t.input_cases i with ⟨hv, hv'⟩ | ⟨v, v', hv, hv', heq⟩
  · simp only [readInput, needInput, hv, hv']
    exact .stop hA _ _
  · have hread : readInput s' op' i = .ok (s.readVarnode v) := by
      simp only [readInput, needInput, hv', ← readVarnode_of_operand heq]
      rfl
    have hread0 : readInput s op i = .ok (s.readVarnode v) := by
      simp only [readInput, needInput, hv]
      rfl
    rw [hread, hread0]
    exact h v hv

theorem Twin.headSize :
    (op'.inputs.head?).map VarnodeData.size = (op.inputs.head?).map VarnodeData.size := by
  have h : ∀ (s : EmulatorState) (op : PcodeOp), (op.inputs.head?).map VarnodeData.size =
      ((op.inputs.map (operand s)).head?).map Operand.size := by
    intro s op
    simp [List.head?_map, Function.comp_def, operand]
  rw [h s' op', h s op, t.inputs]

theorem Twin.length : op'.inputs.length = op.inputs.length := by
  simpa using congrArg List.length t.inputs

theorem Twin.readInput (i : ℕ) : readInput s' op' i = readInput s op i := by
  rcases t.input_cases i with ⟨hv, hv'⟩ | ⟨v, v', hv, hv', heq⟩
  · simp [EmulatorOps.readInput, needInput, hv, hv', t.opcode]
  · simp [EmulatorOps.readInput, needInput, hv, hv', readVarnode_of_operand heq]

end

theorem Local.bind_same {α : Type} {x x' : Except EmulatorError α} {F F' : α → Result}
    (hA : A .stop) (hx : x' = x) (h : ∀ a, Local A s s' out out' (F a) (F' a)) :
    Local A s s' out out' (x >>= F) (x' >>= F') := by
  subst hx
  cases x' with
  | error e => exact .stop hA e e
  | ok a => exact h a

theorem Local.ite {p p' : Prop} [Decidable p] [Decidable p'] (hp : p' ↔ p) {x x' y y' : Result}
    (hx : p → Local A s s' out out' x x') (hy : ¬ p → Local A s s' out out' y y') :
    Local A s s' out out' (if p then x else y) (if p' then x' else y') := by
  by_cases h : p
  · simpa [h, hp.mpr h] using hx h
  · simpa [h, mt hp.mp h] using hy h

theorem Local.storeWord (hA : ∀ bs, A (.store vn bs)) (v : U64) :
    Local A s s' out out' (.ok (s.writeVarnode vn v)) (.ok (s'.writeVarnode vn v)) := by
  have hfit : Fits (toLeBytes (min vn.size 8) v) vn := fits_toLeBytes vn v le_rfl (by norm_num)
  exact ⟨.store vn _, hA _, ⟨_, rfl, hfit, s.bytes_writeVarnode vn v⟩,
    ⟨_, rfl, hfit, s'.bytes_writeVarnode vn v⟩⟩

theorem Local.storeWide (hA : ∀ bs, A (.store vn bs)) (v : U128) :
    Local A s s' out out' (.ok (s.writeWide vn v)) (.ok (s'.writeWide vn v)) := by
  have hfit : Fits (toLeBytes (min vn.size 16) v) vn := fits_toLeBytes vn v (by norm_num) le_rfl
  exact ⟨.store vn _, hA _, ⟨_, rfl, hfit, s.bytes_writeWide vn v⟩,
    ⟨_, rfl, hfit, s'.bytes_writeWide vn v⟩⟩

end Combinators

structure Writing (A : Effect → Prop) : Prop where
  stop : A .stop
  output : ∀ bs, A (.output bs)

section Shapes

variable {A : Effect → Prop} {s s' : EmulatorState} {op op' : PcodeOp}

section

variable (hA : Writing A) (t : Twin s s' op op')

include hA t

theorem local_unary (f : U64 → U64) :
    Local A s s' op.output op'.output (unary s op f) (unary s' op' f) :=
  .output t hA.stop fun _ _ _ _ hsize => .read t hA.stop 0 fun _ _ => .word hA.output hsize _

theorem local_binary (f : U64 → U64 → U64) :
    Local A s s' op.output op'.output (binary s op f) (binary s' op' f) :=
  .output t hA.stop fun _ _ _ _ hsize =>
    .read t hA.stop 0 fun _ _ => .read t hA.stop 1 fun _ _ => .word hA.output hsize _

theorem local_bitwise (f : ∀ w, BitVec w → BitVec w → BitVec w) :
    Local A s s' op.output op'.output (bitwise s op f) (bitwise s' op' f) := by
  refine .output t hA.stop fun vn vn' ho ho' hsize => ?_
  have hnarrow := local_binary hA t (f 64)
  rw [ho, ho'] at hnarrow
  rcases t.input_cases 0 with ⟨h0, h0'⟩ | ⟨a, a', h0, h0', ha⟩
  · simpa only [h0, h0'] using hnarrow
  rcases t.input_cases 1 with ⟨h1, h1'⟩ | ⟨b, b', h1, h1', hb⟩
  · simpa only [h0, h0', h1, h1'] using hnarrow
  simp only [h0, h0', h1, h1', readWide_of_operand ha, readWide_of_operand hb,
    readVarnode_of_operand ha, readVarnode_of_operand hb]
  exact .ite (by rw [hsize]) (fun _ => .wide hA.output hsize _) (fun _ => .word hA.output hsize _)

theorem local_copy : Local A s s' op.output op'.output (copyOp s op) (copyOp s' op') := by
  refine .output t hA.stop fun vn vn' _ _ hsize => .input t hA.stop 0 fun v v' _ hv => ?_
  simp only [readWide_of_operand hv]
  exact .ite (by rw [hsize]) (fun _ => .wide hA.output hsize _)
    (fun _ => .read t hA.stop 0 fun _ _ => .word hA.output hsize _)

theorem local_mult : Local A s s' op.output op'.output (multOp s op) (multOp s' op') := by
  refine .output t hA.stop fun vn vn' _ _ hsize => .ite (by rw [hsize]) (fun _ => ?_)
    (fun _ => .read t hA.stop 0 fun _ _ => .read t hA.stop 1 fun _ _ => .word hA.output hsize _)
  rcases t.input_cases 0 with ⟨h0, h0'⟩ | ⟨a, a', h0, h0', ha⟩
  · simpa only [h0, h0'] using Local.stop hA.stop _ _
  rcases t.input_cases 1 with ⟨h1, h1'⟩ | ⟨b, b', h1, h1', hb⟩
  · simpa only [h0, h0', h1, h1'] using Local.stop hA.stop _ _
  simp only [h0, h0', h1, h1', readWide_of_operand ha, readWide_of_operand hb]
  exact .wide hA.output hsize _

theorem local_negate : Local A s s' op.output op'.output (negateOp s op) (negateOp s' op') := by
  refine .output t hA.stop fun vn vn' _ _ hsize => ?_
  rcases t.input_cases 0 with ⟨h0, h0'⟩ | ⟨a, a', h0, h0', ha⟩
  · simpa only [h0, h0'] using Local.stop hA.stop _ _
  simp only [h0, h0', readWide_of_operand ha, readVarnode_of_operand ha]
  exact .ite (by rw [hsize]) (fun _ => .wide hA.output hsize _) (fun _ => .word hA.output hsize _)

theorem local_zext : Local A s s' op.output op'.output (zextOp s op) (zextOp s' op') :=
  .output t hA.stop fun _ _ _ _ hsize => .read t hA.stop 0 fun _ _ => .wide hA.output hsize _

theorem local_sext : Local A s s' op.output op'.output (sextOp s op) (sextOp s' op') := by
  refine .output t hA.stop fun vn vn' _ _ hsize => .input t hA.stop 0 fun v v' _ hv => ?_
  simp only [readVarnode_of_operand hv, size_of_operand hv]
  exact .wide hA.output hsize _

end

theorem Twin.readRam (t : Twin s s' op op') (a : U64) (n : ℕ) :
    s'.readWide ⟨.ram, a, n⟩ = s.readWide ⟨.ram, a, n⟩ := by
  refine readWide_congr fun sp x hcov => ?_
  obtain ⟨rfl, -⟩ := hcov
  exact congrFun t.ram x

theorem local_load (hA : Writing A) (t : Twin s s' op op') :
    Local A s s' op.output op'.output (loadOp s op) (loadOp s' op') := by
  refine .output t hA.stop fun vn vn' _ _ hsize =>
    .read t hA.stop 0 fun _ _ => .read t hA.stop 1 fun v _ => ?_
  have hmem : ∀ a n, s'.readMemory a n = s.readMemory a n := fun a n => by
    have hword := readVarnode_eq_readWide s' ⟨.ram, a, n⟩
    rw [t.readRam, ← readVarnode_eq_readWide] at hword
    exact hword
  simp only [t.readRam, hmem, hsize]
  exact .ite .rfl (fun _ => .wide hA.output hsize _) (fun _ => .word hA.output hsize _)

theorem local_store (hA : A .stop) (hstore : ∀ v vn bs, op.input 0 = some v →
      vn.space = (s.readVarnode v).toNat % 2 ^ 32 → A (.store vn bs))
    (t : Twin s s' op op') :
    Local A s s' op.output op'.output (storeOp s op) (storeOp s' op') := by
  refine .read t hA 0 fun v hv => .read t hA 1 fun _ _ => .input t hA 2 fun x x' _ hx => ?_
  simp only [readWide_of_operand hx, readVarnode_of_operand hx, size_of_operand hx]
  refine .ite .rfl (fun _ => .storeWide (fun bs => hstore v _ bs hv rfl) _) fun _ => ?_
  refine .ite .rfl (fun hram => ?_) fun _ => .storeWord (fun bs => hstore v _ bs hv rfl) _
  refine Local.storeWord (fun bs => hstore v ⟨.ram, _, _⟩ bs hv ?_) _
  rw [hram]
  rfl

section

variable (hA : Writing A) (t : Twin s s' op op')

include hA t

theorem local_piece : Local A s s' op.output op'.output (pieceOp s op) (pieceOp s' op') := by
  refine .output t hA.stop fun vn vn' _ _ hsize => .input t hA.stop 0 fun hi hi' _ hhi =>
    .input t hA.stop 1 fun lo lo' _ hlo => ?_
  simp only [readWide_of_operand hhi, readWide_of_operand hlo, readVarnode_of_operand hhi,
    readVarnode_of_operand hlo, size_of_operand hlo]
  exact .ite (by rw [hsize]) (fun _ => .wide hA.output hsize _) (fun _ => .word hA.output hsize _)

theorem local_subpiece :
    Local A s s' op.output op'.output (subpieceOp s op) (subpieceOp s' op') := by
  refine .output t hA.stop fun vn vn' _ _ hsize => .input t hA.stop 0 fun v v' _ hv =>
    .read t hA.stop 1 fun _ _ => ?_
  simp only [readWide_of_operand hv]
  exact .wide hA.output hsize _

theorem local_select : Local A s s' op.output op'.output (selectOp s op) (selectOp s' op') := by
  refine .output t hA.stop fun vn vn' _ _ hsize => .read t hA.stop 0 fun _ _ =>
    .input t hA.stop _ fun v v' _ hv => ?_
  simp only [readWide_of_operand hv]
  exact .wide hA.output hsize _

end

theorem Twin.fieldSize (t : Twin s s' op op') (i : ℕ) : fieldSize s' op' i = fieldSize s op i := by
  simp only [EmulatorOps.fieldSize, t.length, t.readInput]

section

variable (hA : Writing A) (t : Twin s s' op op')

include hA t

theorem local_insert : Local A s s' op.output op'.output (insertOp s op) (insertOp s' op') :=
  .output t hA.stop fun _ _ _ _ hsize => .read t hA.stop 0 fun _ _ => .read t hA.stop 1 fun _ _ =>
    .read t hA.stop 2 fun _ _ => .bind_same hA.stop (t.fieldSize 3) fun _ => .word hA.output hsize _

theorem local_zPull : Local A s s' op.output op'.output (zPullOp s op) (zPullOp s' op') :=
  .output t hA.stop fun _ _ _ _ hsize => .read t hA.stop 0 fun _ _ => .read t hA.stop 1 fun _ _ =>
    .bind_same hA.stop (t.fieldSize 2) fun _ => .word hA.output hsize _

theorem local_sPull : Local A s s' op.output op'.output (sPullOp s op) (sPullOp s' op') :=
  .output t hA.stop fun _ _ _ _ hsize => .read t hA.stop 0 fun _ _ => .read t hA.stop 1 fun _ _ =>
    .bind_same hA.stop (t.fieldSize 2) fun _ => .word hA.output hsize _

end

theorem local_passThrough (hA : Writing A) (hkeep : op.output = none → A .keep)
    (t : Twin s s' op op') :
    Local A s s' op.output op'.output (passThroughOp s op) (passThroughOp s' op') := by
  have hsize := t.output
  have hinputs : op'.inputs ≠ [] ↔ op.inputs ≠ [] := by
    simp only [← List.length_pos_iff, t.length]
  unfold passThroughOp
  cases ho : op.output with
  | none =>
    have ho' : op'.output = none := by simpa [ho] using hsize
    rw [ho']
    exact .keep (hkeep ho)
  | some vn =>
    rw [ho, map_some, map_eq_some_iff] at hsize
    obtain ⟨vn', ho', hsize⟩ := hsize
    rw [ho']
    exact .ite hinputs (fun _ => .read t hA.stop 0 fun _ _ => .word hA.output hsize _)
      (fun _ => .word hA.output hsize 0)

theorem local_stopWith (hA : A .stop) (t : Twin s s' op op') (i : ℕ) (e : U64 → EmulatorError) :
    Local A s s' op.output op'.output
      (readInput s op i >>= fun v => .error (e v)) (readInput s' op' i >>= fun v => .error (e v)) :=
  .read t hA i fun _ _ => .stop hA _ _

theorem local_intrinsic (g : Intrinsics) (hA : Writing A)
    (hkeep : g.outcome s op = .ok .left → A .keep) (t : Twin s s' op op') :
    Local A s s' op.output op'.output (g.run s op) (g.run s' op') := by
  have hsame : g.outcome s' op' = g.outcome s op := by
    simp only [Intrinsics.outcome, t.opcode, t.output, t.inputs]
  unfold Intrinsics.run
  rw [hsame]
  cases hg : g.outcome s op with
  | error e => exact .stop hA.stop e e
  | ok w =>
    cases w with
    | left => exact .keep (hkeep hg)
    | word v => exact .output t hA.stop fun _ _ _ _ hsize => .word hA.output hsize v
    | wide v => exact .output t hA.stop fun _ _ _ _ hsize => .wide hA.output hsize v

end Shapes

/-- The effects an operation can have: it leaves its output alone only when it has none,
falls through a branch or is an intrinsic that does so; only a store writes elsewhere. -/
def Allowed (g : Intrinsics) (s : EmulatorState) (op : PcodeOp) : Effect → Prop
  | .stop | .output _ => True
  | .keep => op.output = none ∨ op.opcode = .cBranch ∨
      (isIntrinsic op.opcode ∧ g.outcome s op = .ok .left)
  | .store vn _ => op.opcode = .store ∧
      ∃ v, op.input 0 = some v ∧ vn.space = (s.readVarnode v).toNat % 2 ^ 32

theorem allowed_writing (g : Intrinsics) (s : EmulatorState) (op : PcodeOp) :
    Writing (Allowed g s op) :=
  ⟨trivial, fun _ => trivial⟩

theorem execute_local (g : Intrinsics) {s s' : EmulatorState} {op op' : PcodeOp}
    (t : Twin s s' op op') :
    Local (Allowed g s op) s s' op.output op'.output (execute g.run s op)
      (execute g.run s' op') := by
  have hA := allowed_writing g s op
  have hfirst : firstSize op' = firstSize op := by simp only [firstSize, t.headSize]
  have hintrinsic : isIntrinsic op.opcode → Local (Allowed g s op) s s' op.output op'.output
      (g.run s op) (g.run s' op') := fun hi =>
    local_intrinsic g hA (fun hg => .inr (.inr ⟨hi, hg⟩)) t
  have hkeep : op.output = none → Allowed g s op .keep := .inl
  have hstore : op.opcode = .store → ∀ v vn bs, op.input 0 = some v →
      vn.space = (s.readVarnode v).toNat % 2 ^ 32 → Allowed g s op (.store vn bs) :=
    fun hoc v vn bs hv hsp => ⟨hoc, v, hv, hsp⟩
  unfold execute
  simp only [hfirst, t.headSize, t.opcode]
  by_cases hfloat : isFloatOpcode op.opcode
  · simpa only [hfloat, if_true] using hintrinsic (by simp [isIntrinsic, hfloat])
  rw [if_neg hfloat, if_neg hfloat]
  cases hoc : op.opcode <;> simp only [hoc, isFloatOpcode, not_true_eq_false] at hfloat <;>
    dsimp only <;> first
    | with_reducible exact local_binary hA t _
    | with_reducible exact local_unary hA t _
    | with_reducible exact local_bitwise hA t _
    | with_reducible exact local_passThrough hA hkeep t
    | with_reducible exact local_copy hA t
    | with_reducible exact local_mult hA t
    | with_reducible exact local_negate hA t
    | with_reducible exact local_zext hA t
    | with_reducible exact local_sext hA t
    | with_reducible exact local_load hA t
    | with_reducible exact local_piece hA t
    | with_reducible exact local_subpiece hA t
    | with_reducible exact local_select hA t
    | with_reducible exact local_insert hA t
    | with_reducible exact local_zPull hA t
    | with_reducible exact local_sPull hA t
    | with_reducible exact local_store hA.stop (hstore hoc) t
    | with_reducible exact local_stopWith hA.stop t 0 _
    | exact Local.input t hA.stop 0 fun _ _ _ _ => .stop hA.stop _ _
    | exact hintrinsic (by simp [isIntrinsic, hoc])
    | exact Local.input t hA.stop 0 fun _ _ _ _ => .read t hA.stop 1 fun _ _ =>
        .ite .rfl (fun _ => .stop hA.stop _ _) fun _ => .keep (.inr (.inl hoc))

end OperationLocality
