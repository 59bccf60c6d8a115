import Reargo.EmulatorSemantics
import Reargo.MipsLifter

/-!
# The data flow of MIPS instructions

The arithmetic, multiply, divide, move, load and store instructions as the manual defines
them on the processor's registers and memory, and the lifted operations run on an emulator
state that holds them.
-/
namespace MipsDataFlow

open PcodeModel LittleEndian EmulatorMemory EmulatorOps EmulatorSemantics MipsLifter BitVec
open WidthArithmetic (cut_ext cut_mul ext_toNat)
open Function (update_of_ne update_self)
open BitVec (eq_of_toNat_eq setWidth_eq toNat_ofNat)

/-- Registers and memory, and beside them what else the emulator holds, temporaries apart. -/
@[ext]
structure State where
  gpr : Reg → Word
  hi : Word
  lo : Word
  mem : U64 → Byte
  rest : SpaceId → U64 → Byte

/-- Register zero always reads zero. -/
def State.read (st : State) (r : Reg) : Word := if r = 0 then 0 else st.gpr r

def State.write (st : State) (r : Reg) (v : Word) : State :=
  if r = 0 then st else { st with gpr := Function.update st.gpr r v }

inductive AluOp where
  | add | sub | and | or | xor | slt | sltu

def AluOp.result (x y : Word) : AluOp → Word
  | add => x + y
  | sub => x - y
  | and => x &&& y
  | or => x ||| y
  | xor => x ^^^ y
  | slt => if x.toInt < y.toInt then 1 else 0
  | sltu => if x.toNat < y.toNat then 1 else 0

inductive ShiftOp where
  | sll | srl | sra

def ShiftOp.result (x : Word) (n : ℕ) : ShiftOp → Word
  | sll => x <<< n
  | srl => x >>> n
  | sra => x.sshiftRight n

/-- A second operand: a register or an immediate. -/
inductive Source where
  | reg (r : Reg)
  | imm (v : Word)

def Source.value (st : State) : Source → Word
  | reg r => st.read r
  | imm v => v

inductive Width where
  | byte | half | word

def Width.bytes : Width → ℕ
  | byte => 1
  | half => 2
  | word => 4

inductive Instruction where
  | alu (op : AluOp) (rd rs : Reg) (b : Source)
  | nor (rd rs rt : Reg)
  | shift (op : ShiftOp) (rd rt : Reg) (sa : BitVec 5)
  | shiftVar (op : ShiftOp) (rd rt rs : Reg)
  | lui (rt : Reg) (imm : BitVec 16)
  | mfhi (rd : Reg)
  | mflo (rd : Reg)
  | mthi (rs : Reg)
  | mtlo (rs : Reg)
  | mult (signed : Bool) (rs rt : Reg)
  | div (signed : Bool) (rs rt : Reg)
  | load (w : Width) (signed : Bool) (rt base : Reg) (offset : Word)
  | store (w : Width) (rt base : Reg) (offset : Word)

def reserved {n : ℕ} (field : BitVec n) (i : Instruction) : Option Instruction :=
  if field = 0 then some i else none

def decodeSpecial (word : Word) : Option Instruction :=
  let rs := rs word
  let rt := rt word
  let rd := rd word
  let sa := shamt word
  let threeRegisters op := reserved sa (.alu op rd rs (.reg rt))
  match (funct word).toNat with
  | 0x00 => reserved rs (.shift .sll rd rt sa)
  | 0x02 => reserved rs (.shift .srl rd rt sa)
  | 0x03 => reserved rs (.shift .sra rd rt sa)
  | 0x04 => reserved sa (.shiftVar .sll rd rt rs)
  | 0x06 => reserved sa (.shiftVar .srl rd rt rs)
  | 0x07 => reserved sa (.shiftVar .sra rd rt rs)
  | 0x10 => reserved (rs ++ rt ++ sa) (.mfhi rd)
  | 0x11 => reserved (rt ++ rd ++ sa) (.mthi rs)
  | 0x12 => reserved (rs ++ rt ++ sa) (.mflo rd)
  | 0x13 => reserved (rt ++ rd ++ sa) (.mtlo rs)
  | 0x18 => reserved (rd ++ sa) (.mult true rs rt)
  | 0x19 => reserved (rd ++ sa) (.mult false rs rt)
  | 0x1A => reserved (rd ++ sa) (.div true rs rt)
  | 0x1B => reserved (rd ++ sa) (.div false rs rt)
  | 0x20 | 0x21 => threeRegisters .add
  | 0x22 | 0x23 => threeRegisters .sub
  | 0x24 => threeRegisters .and
  | 0x25 => threeRegisters .or
  | 0x26 => threeRegisters .xor
  | 0x27 => reserved sa (.nor rd rs rt)
  | 0x2A => threeRegisters .slt
  | 0x2B => threeRegisters .sltu
  | _ => none

def decode (word : Word) : Option Instruction :=
  let rs := rs word
  let rt := rt word
  let signed := (imm16 word).signExtend 32
  let unsigned := (imm16 word).setWidth 32
  match (opcode word).toNat with
  | 0x00 => decodeSpecial word
  | 0x08 | 0x09 => some (.alu .add rt rs (.imm signed))
  | 0x0A => some (.alu .slt rt rs (.imm signed))
  | 0x0B => some (.alu .sltu rt rs (.imm signed))
  | 0x0C => some (.alu .and rt rs (.imm unsigned))
  | 0x0D => some (.alu .or rt rs (.imm unsigned))
  | 0x0E => some (.alu .xor rt rs (.imm unsigned))
  | 0x0F => reserved rs (.lui rt (imm16 word))
  | 0x20 => some (.load .byte true rt rs signed)
  | 0x21 => some (.load .half true rt rs signed)
  | 0x23 => some (.load .word true rt rs signed)
  | 0x24 => some (.load .byte false rt rs signed)
  | 0x25 => some (.load .half false rt rs signed)
  | 0x28 => some (.store .byte rt rs signed)
  | 0x29 => some (.store .half rt rs signed)
  | 0x2B => some (.store .word rt rs signed)
  | _ => none

def product (signed : Bool) (x y : Word) : U64 :=
  if signed then x.signExtend 64 * y.signExtend 64 else x.setWidth 64 * y.setWidth 64

def quotient (signed : Bool) (x y : Word) : Word :=
  if signed then BitVec.ofInt 32 (x.toInt.tdiv y.toInt) else BitVec.ofNat 32 (x.toNat / y.toNat)

def remainder (signed : Bool) (x y : Word) : Word :=
  if signed then BitVec.ofInt 32 (x.toInt.tmod y.toInt) else BitVec.ofNat 32 (x.toNat % y.toNat)

def loaded (w : Width) (signed : Bool) (mem : U64 → Byte) (a : Word) : Word :=
  let v := BitVec.ofNat (8 * w.bytes) (leNat (loadBytes mem (a.setWidth 64) w.bytes))
  if signed then v.signExtend 32 else v.setWidth 32

namespace Instruction

/-- The effect on a state, an access carried out at any address. -/
def perform (st : State) : Instruction → State
  | alu op rd rs b => st.write rd (op.result (st.read rs) (b.value st))
  | nor rd rs rt => st.write rd (~~~(st.read rs ||| st.read rt))
  | shift op rd rt sa => st.write rd (op.result (st.read rt) sa.toNat)
  | shiftVar op rd rt rs => st.write rd (op.result (st.read rt) ((st.read rs).toNat % 32))
  | lui rt imm => st.write rt (imm ++ 0#16)
  | mfhi rd => st.write rd st.hi
  | mflo rd => st.write rd st.lo
  | mthi rs => { st with hi := st.read rs }
  | mtlo rs => { st with lo := st.read rs }
  | mult signed rs rt =>
    let p := product signed (st.read rs) (st.read rt)
    { st with hi := p.extractLsb' 32 32, lo := p.setWidth 32 }
  | div signed rs rt =>
    { st with
      lo := quotient signed (st.read rs) (st.read rt)
      hi := remainder signed (st.read rs) (st.read rt) }
  | load w signed rt base offset =>
    st.write rt (loaded w signed st.mem (st.read base + offset))
  | store w rt base offset =>
    let bytes := toLeBytes w.bytes (st.read rt)
    { st with mem := storeBytes st.mem ((st.read base + offset).setWidth 64) bytes }

/-- An access at an address that is no multiple of its width. -/
def addressError (st : State) : Instruction → Bool
  | load w _ _ base offset | store w _ base offset =>
    (st.read base + offset).toNat % w.bytes ≠ 0
  | _ => false

/-- What the manual defines: an address error leaves registers and memory as they are. -/
def exec (st : State) (i : Instruction) : State := if i.addressError st then st else i.perform st

/-- No division by zero, whose result the manual leaves open. -/
def DivisorNonzero (st : State) : Instruction → Prop
  | div _ _ rt => st.read rt ≠ 0
  | _ => True

end Instruction

/-- The four bytes of the `k`-th register; the last two are `HI` and `LO`. -/
def slot (k : ℕ) : VarnodeData := ⟨.register, BitVec.ofNat 64 (4 * k), 4⟩

def registerAt (s : EmulatorState) (k : ℕ) : Word :=
  BitVec.ofNat 32 (leNat (loadBytes (s.bytes .register) (BitVec.ofNat 64 (4 * k)) 4))

def inFile (a : U64) : Bool := a.toNat < 128 || (132 ≤ a.toNat && a.toNat < 140)

def view (s : EmulatorState) : State where
  gpr r := registerAt s r.toNat
  hi := registerAt s 33
  lo := registerAt s 34
  mem := s.bytes .ram
  rest sp a :=
    if sp = .ram ∨ sp = .unique ∨ (sp = .register ∧ inFile a) then 0
    else s.bytes sp a

def State.set (st : State) (k : ℕ) (v : Word) : State :=
  { st with
    gpr := fun r => if r.toNat = k then v else st.gpr r
    hi := if 33 = k then v else st.hi
    lo := if 34 = k then v else st.lo }

theorem register_ne_const : SpaceId.register ≠ SpaceId.const := by decide

theorem unique_ne_const : SpaceId.unique ≠ SpaceId.const := by decide

theorem value_slot (s : EmulatorState) (k : ℕ) : value s (slot k) = registerAt s k :=
  if_neg register_ne_const

theorem register_eq (r : Reg) (n : ℕ) :
    register r n = ⟨.register, BitVec.ofNat 64 (4 * r.toNat), n⟩ := by
  unfold register
  congr 1
  apply eq_of_toNat_eq
  rw [toNat_mul, toNat_setWidth, toNat_ofNat, mul_comm 4]
  simp

theorem write_eq_set {r : Reg} (hr : r ≠ 0) (st : State) (v : Word) :
    st.write r v = st.set r.toNat v := by
  have hlt := r.isLt
  rw [State.write, if_neg hr, State.set, if_neg (by omega), if_neg (by omega)]
  congr 1
  funext r'
  simp only [Function.update_apply, toNat_inj]

theorem set_hi (st : State) (v : Word) : st.set 33 v = { st with hi := v } := by
  unfold State.set
  congr 1
  exact funext fun r => if_neg (by have := r.isLt; omega)

theorem set_lo (st : State) (v : Word) : st.set 34 v = { st with lo := v } := by
  unfold State.set
  congr 1
  exact funext fun r => if_neg (by have := r.isLt; omega)

section Stores

variable {s s' : EmulatorState} {bs : List Byte} {j k : ℕ} {a : U64}

theorem value_stored {vn : VarnodeData} {v : BitVec (8 * vn.size)} (hc : vn.space ≠ .const)
    (hn : vn.size ≤ 8)
    (h : s'.bytes = PageAccess.stored s.bytes vn.space vn.offset (toLeBytes vn.size v)) :
    value s' vn = v := by
  have hload := loadBytes_storeBytes (s.bytes vn.space) vn.offset (toLeBytes vn.size v)
    (by rw [length_toLeBytes]; omega)
  rw [length_toLeBytes] at hload
  rw [value, if_neg hc, h, PageAccess.stored, update_self, hload, leNat_toLeBytes, pow_256]
  apply eq_of_toNat_eq
  rw [toNat_ofNat, Nat.mod_mod, Nat.mod_eq_of_lt v.isLt]

theorem storeBytes_apart {m : U64 → Byte} (hbs : bs.length = 4) (hk : k < 64)
    (ha : a.toNat / 4 ≠ k) : storeBytes m (BitVec.ofNat 64 (4 * k)) bs a = m a := by
  have hfar : 4 ≤ (a - BitVec.ofNat 64 (4 * k)).toNat := by
    have hlt := a.isLt
    rw [toNat_sub, toNat_ofNat]
    omega
  rw [storeBytes_apply _ _ _ _ (by omega), List.getElem?_eq_none (by omega), Option.getD_none]

theorem registerAt_stored {v : Word} (hj : j < 64) (hk : k < 64)
    (h : s'.bytes = PageAccess.stored s.bytes .register (BitVec.ofNat 64 (4 * k))
      (toLeBytes 4 v)) :
    registerAt s' j = if j = k then v else registerAt s j := by
  by_cases hjk : j = k
  · rw [if_pos hjk]
    subst hjk
    exact (value_slot s' j).symm.trans
      (@value_stored s s' (slot j) v register_ne_const (show 4 ≤ 8 by decide) h)
  · rw [if_neg hjk, registerAt, h, PageAccess.stored, update_self]
    refine congrArg (BitVec.ofNat 32 ∘ leNat) (List.map_congr_left fun i hi => ?_)
    refine storeBytes_apart (length_toLeBytes 4 v) hk ?_
    have hi := List.mem_range.mp hi
    rw [toNat_add, toNat_ofNat, toNat_ofNat]
    omega

theorem view_slot {v : Word} (hk : k < 35) (hne : k ≠ 32)
    (h : s'.bytes = PageAccess.stored s.bytes .register (BitVec.ofNat 64 (4 * k))
      (toLeBytes 4 v)) : view s' = (view s).set k v := by
  have hvalue : ∀ j < 64, registerAt s' j = if j = k then v else registerAt s j :=
    fun j hj => registerAt_stored hj (by omega) h
  have hother : ∀ sp ≠ .register, s'.bytes sp = s.bytes sp := fun sp hsp => by
    rw [h, PageAccess.stored, update_of_ne hsp]
  apply State.ext
  · exact funext fun r => hvalue _ (by have := r.isLt; omega)
  · exact hvalue 33 (by decide)
  · exact hvalue 34 (by decide)
  · exact hother _ (by decide)
  · funext sp a
    change (if _ then _ else _) = if _ then _ else _
    split
    · rfl
    · next hout =>
      by_cases hsp : sp = .register
      · have hfile : ¬ inFile a := fun hc => hout (.inr (.inr ⟨hsp, hc⟩))
        simp only [inFile, Bool.or_eq_true, Bool.and_eq_true, decide_eq_true_eq] at hfile
        rw [h, PageAccess.stored, hsp, update_self]
        exact storeBytes_apart (length_toLeBytes 4 v) (by omega) (by omega)
      · rw [hother sp hsp]

theorem view_of_registers
    (h : ∀ sp, sp ≠ .ram → sp ≠ .unique → s'.bytes sp = s.bytes sp) :
    view s' = { view s with mem := s'.bytes .ram } := by
  have hreg : registerAt s' = registerAt s := by
    funext k
    rw [registerAt, h _ (by decide) (by decide)]
    rfl
  apply State.ext
  · exact funext fun r => congrFun hreg _
  · exact congrFun hreg 33
  · exact congrFun hreg 34
  · rfl
  · funext sp a
    change (if _ then _ else _) = if _ then _ else _
    split
    · rfl
    · next hout => rw [h sp (fun hc => hout (.inl hc)) fun hc => hout (.inr (.inl hc))]

theorem view_unique (h : s'.bytes = PageAccess.stored s.bytes .unique a bs) :
    view s' = view s := by
  have hother : ∀ sp ≠ .unique, s'.bytes sp = s.bytes sp := fun sp hsp => by
    rw [h, PageAccess.stored, update_of_ne hsp]
  rw [view_of_registers fun sp _ hsp => hother sp hsp, hother _ (by decide)]
  rfl

theorem view_ram (h : s'.bytes = PageAccess.stored s.bytes .ram a bs) :
    view s' = { view s with mem := storeBytes (view s).mem a bs } := by
  have hram : s'.bytes .ram = storeBytes (view s).mem a bs := by
    rw [h, PageAccess.stored, update_self]
    rfl
  rw [← hram]
  exact view_of_registers fun sp hsp _ => by rw [h, PageAccess.stored, update_of_ne hsp]

end Stores

/-- A four-byte operand and its value. -/
structure Holds (s : EmulatorState) (vn : VarnodeData) (v : Word) : Prop where
  size : vn.size = 4
  fits : ConstFits vn
  denotes : operand s vn = ⟨8 * 4, v⟩

section Operands

variable {s : EmulatorState}

theorem holds_slot (k : ℕ) : Holds s (slot k) (registerAt s k) :=
  ⟨rfl, fun hc => absurd hc register_ne_const, congrArg (Sigma.mk (8 * 4)) (value_slot s k)⟩

theorem holds_unique {off : U64} {v : Word} (h : value s (unique off 4) = v) :
    Holds s (unique off 4) v :=
  ⟨rfl, fun hc => absurd hc unique_ne_const, congrArg (Sigma.mk (8 * 4)) h⟩

theorem holds_constant (v : Word) : Holds s (constant (v.setWidth 64) 4) v := by
  refine ⟨rfl, fun _ => ?_, ?_⟩
  · exact (ext_toNat (by decide) v).trans_lt v.isLt
  · have hcut : (v.setWidth 64).setWidth 32 = v := cut_ext (by decide) v
    exact congrArg (Sigma.mk (8 * 4)) hcut

theorem holds_regIn (r : Reg) : Holds s (regIn r) ((view s).read r) := by
  unfold regIn State.read
  split
  · exact holds_constant 0
  · rw [register_eq]
    exact holds_slot _

end Operands

/-- The operations one after another, up to one that fails. -/
def executeOps (un : Uninterpreted) : Emulator → List PcodeOp → Emulator × Except EmulatorError Unit
  | em, [] => (em, .ok ())
  | em, op :: ops =>
    match em.executeOp un op with
    | (em', .ok ()) => executeOps un em' ops
    | (em', .error e) => (em', .error e)

/-- The operations run to their end and leave the processor in a state. -/
def Computes (un : Uninterpreted) (em : Emulator) (ops : List PcodeOp) (st : State) : Prop :=
  (executeOps un em ops).2 = .ok () ∧ view (executeOps un em ops).1.state = st

section Runs

variable {un : Uninterpreted} {em : Emulator} {op : PcodeOp} {ops : List PcodeOp} {st : State}
  {x y : VarnodeData} {u v w : Word} {oc : OpCode} {sp : SpaceId} {off : U64} {n k : ℕ}

theorem computes_nil (h : view em.state = st) : Computes un em [] st := ⟨rfl, h⟩

theorem computes_cons {s' : EmulatorState} (hop : execute un em.state op = .ok s')
    (h : Computes un ⟨s', em.stepCount + 1⟩ ops st) : Computes un em (op :: ops) st := by
  have hstep : em.executeOp un op = (⟨s', em.stepCount + 1⟩, .ok ()) := by
    rw [Emulator.executeOp, hop]
  unfold Computes executeOps
  rw [hstep]
  exact h

/-- A result goes into a register. -/
theorem computes_slot (hk : k < 35) (hne : k ≠ 32)
    (hop : Stores em.state (execute un em.state op) (slot k) v)
    (h : ∀ em' : Emulator, view em'.state = (view em.state).set k v → Computes un em' ops st) :
    Computes un em (op :: ops) st := by
  obtain ⟨s', hs, hbytes⟩ := hop
  exact computes_cons hs (h _ (view_slot hk hne hbytes))

/-- A result goes into a temporary. -/
theorem computes_unique {w : BitVec (8 * n)} (hn : n ≤ 8)
    (hop : Stores em.state (execute un em.state op) (unique off n) w)
    (h : ∀ em' : Emulator, view em'.state = view em.state → value em'.state (unique off n) = w →
      Computes un em' ops st) : Computes un em (op :: ops) st := by
  obtain ⟨s', hs, hbytes⟩ := hop
  exact computes_cons hs (h _ (view_unique hbytes) (value_stored unique_ne_const hn hbytes))

theorem computes_into {r : Reg} {f : VarnodeData → List PcodeOp}
    (h : r ≠ 0 → Computes un em (f (slot r.toNat)) ((view em.state).set r.toNat v)) :
    Computes un em (into r f) ((view em.state).write r v) := by
  unfold into regOut
  by_cases hr : r = 0
  · rw [if_pos hr, State.write, if_pos hr]
    exact computes_nil rfl
  · rw [if_neg hr, register_eq, write_eq_set hr]
    exact h hr

theorem computes_result {r : Reg} (hop : Stores em.state (execute un em.state op) (slot r.toNat) v) :
    Computes un em [op] ((view em.state).set r.toNat v) :=
  computes_slot (by have := r.isLt; omega) (by have := r.isLt; omega) hop fun _ => computes_nil

theorem stores_pair (hx : Holds em.state x u) (hy : Holds em.state y v)
    (hfit : SizesFit oc 4 [4, 4]) (hw : binaryResult oc (8 * 4) u v = w) :
    Stores em.state (execute un em.state ⟨oc, some ⟨sp, off, 4⟩, [x, y]⟩) ⟨sp, off, 4⟩ w := by
  have hword : WordSize 4 := by simp [WordSize]
  have hsx : WordSize x.size := hx.size ▸ hword
  have hsy : WordSize y.size := hy.size ▸ hword
  have hfit : SizesFit oc 4 [x.size, y.size] := by rwa [hx.size, hy.size]
  have hstore : Stores em.state (execute un em.state ⟨oc, some ⟨sp, off, 4⟩, [x, y]⟩) ⟨sp, off, 4⟩
      (bitResult oc (8 * 4) [operand em.state x, operand em.state y]) := by
    by_cases hoc : oc = .intSDiv
    · subst hoc
      refine (stores_sdiv_iff un em.state hfit hword hx.fits hy.fits).mpr ?_
      rintro ⟨-, h⟩
      have hwidth := congrArg Sigma.fst (List.cons.inj h).1
      rw [hx.denotes] at hwidth
      exact absurd hwidth (show ¬ 8 * 4 = 64 by decide)
    · exact stores_two un em.state hoc hfit hword hsx hsy hx.fits hy.fits
  rw [hx.denotes, hy.denotes] at hstore
  exact hw ▸ hstore

theorem stores_single (hx : Holds em.state x u) (hfit : SizesFit oc 4 [4])
    (hw : unaryResult oc (8 * 4) u = w) :
    Stores em.state (execute un em.state ⟨oc, some ⟨sp, off, 4⟩, [x]⟩) ⟨sp, off, 4⟩ w := by
  have hword : WordSize 4 := by simp [WordSize]
  have hstore : Stores em.state (execute un em.state ⟨oc, some ⟨sp, off, 4⟩, [x]⟩) ⟨sp, off, 4⟩
      (bitResult oc (8 * 4) [operand em.state x]) :=
    stores_one un em.state (hx.size.symm ▸ hfit) hword (hx.size ▸ hword) hx.fits
  rw [hx.denotes] at hstore
  exact hw ▸ hstore

end Runs

def AluOp.code : AluOp → OpCode
  | add => .intAdd
  | sub => .intSub
  | and => .intAnd
  | or => .intOr
  | xor => .intXor
  | slt => .intSLess
  | sltu => .intLess

theorem AluOp.fits (op : AluOp) : SizesFit op.code 4 [4, 4] := by
  cases op <;> first | exact ⟨rfl, rfl⟩ | exact rfl

theorem AluOp.result_eq (op : AluOp) (x y : Word) :
    binaryResult op.code (8 * 4) x y = op.result x y := by
  cases op <;> simp [binaryResult, sameWidthResult, code, result, bit]

def ShiftOp.code : ShiftOp → OpCode
  | sll => .intLeft
  | srl => .intRight
  | sra => .intSRight

theorem ShiftOp.fits (op : ShiftOp) : SizesFit op.code 4 [4, 4] := by
  cases op <;> exact rfl

theorem ShiftOp.result_eq (op : ShiftOp) (x y : Word) :
    binaryResult op.code (8 * 4) x y = op.result x y.toNat := by
  cases op <;> simp [binaryResult, code, result]

def Source.varnode : Source → VarnodeData
  | reg r => regIn r
  | imm v => constant (v.setWidth 64) 4

theorem holds_source (s : EmulatorState) (b : Source) : Holds s b.varnode (b.value (view s)) := by
  cases b with
  | reg r => exact holds_regIn r
  | imm v => exact holds_constant v

def Instruction.ops : Instruction → List PcodeOp
  | alu op rd rs b => binop rd op.code (regIn rs) b.varnode
  | nor rd rs rt => MipsLifter.nor rd (regIn rs) (regIn rt)
  | shift op rd rt sa => binop rd op.code (regIn rt) (constant (sa.setWidth 64) 4)
  | shiftVar op rd rt rs => variableShift rd op.code (regIn rt) (regIn rs)
  | lui rt imm => copyInto rt (constant (imm.setWidth 64 <<< 16) 4)
  | mfhi rd => copyInto rd hiReg
  | mflo rd => copyInto rd loReg
  | mthi rs => [⟨.copy, some hiReg, [regIn rs]⟩]
  | mtlo rs => [⟨.copy, some loReg, [regIn rs]⟩]
  | mult _ rs rt => [⟨.intMult, some loReg, [regIn rs, regIn rt]⟩]
  | div signed rs rt => quotients (if signed then .intSDiv else .intDiv)
      (if signed then .intSRem else .intRem) (regIn rs) (regIn rt)
  | load w signed rt base offset =>
    MipsLifter.load rt base (constant (offset.setWidth 64) 4) w.bytes signed
  | store w rt base offset => MipsLifter.store rt base (constant (offset.setWidth 64) 4) w.bytes

section Decoding

variable {word : Word} {i j : Instruction}

theorem reserved_eq_some {n : ℕ} {field : BitVec n} (h : reserved field j = some i) : i = j := by
  unfold reserved at h
  split_ifs at h
  exact (Option.some.inj h).symm

theorem special_of_decode (address : U64) (h : decodeSpecial word = some i) :
    special word address = i.ops := by
  unfold decodeSpecial at h
  unfold special
  split at h <;> first | cases h | (next heq => rw [heq, reserved_eq_some h]; rfl)

theorem cut_signExtend {w : ℕ} (hw : w ≤ 64) (x : BitVec w) :
    (x.signExtend 64).setWidth 32 = x.signExtend 32 := by
  rw [WidthArithmetic.cut_eq_ofInt (by decide), toInt_signExtend_of_le hw]
  rfl

theorem sextImm_eq (word : Word) :
    sextImm word = constant (((imm16 word).signExtend 32).setWidth 64) 4 := by
  have hmask : (0xFFFFFFFF : U64).toNat = 2 ^ 32 - 1 := rfl
  unfold sextImm
  congr 1
  apply eq_of_toNat_eq
  rw [toNat_and, hmask, Nat.and_two_pow_sub_one_eq_mod,
    ← cut_signExtend (by decide), ext_toNat (by decide), toNat_setWidth]

theorem zextImm_eq (word : Word) :
    zextImm word = constant (((imm16 word).setWidth 32).setWidth 64) 4 := by
  unfold zextImm
  congr 1

theorem liftWord_of_decode (address : U64) (h : decode word = some i) :
    liftWord word address = i.ops := by
  unfold decode at h
  unfold liftWord
  simp only [sextImm_eq, zextImm_eq]
  split at h
  case h_1 heq =>
    rw [heq]
    exact special_of_decode address h
  all_goals first
    | (next heq => rw [heq, reserved_eq_some h]; rfl)
    | (next heq => rw [heq]; cases h; rfl)
    | cases h

end Decoding

theorem leNat_loadBytes_mod (m : U64 → Byte) (a : U64) {k n : ℕ} (h : k ≤ n) :
    leNat (loadBytes m a n) % 256 ^ k = leNat (loadBytes m a k) := by
  have hlt := leNat_lt (loadBytes m a k)
  rw [length_loadBytes] at hlt
  rw [← Nat.add_sub_cancel' h, loadBytes_add, leNat_append, length_loadBytes,
    Nat.add_mul_mod_self_left, Nat.mod_eq_of_lt hlt]

section Memory

variable {un : Uninterpreted} {s : EmulatorState} {addr x : VarnodeData} {a v : Word} {n : ℕ}

theorem Holds.readVarnode (hx : Holds s x v) : s.readVarnode x = v.setWidth 64 := by
  have hvalue : s.readVarnode x = (operand s x).2.setWidth 64 :=
    readVarnode_eq_value s (hx.size.trans_le (by decide)) hx.fits
  rw [hvalue, hx.denotes]

theorem stores_load {sp : SpaceId} {off : U64} (ha : Holds s addr a) (hn : n ≤ 8) :
    Stores s (execute un s ⟨.load, some ⟨sp, off, n⟩, [memorySpace, addr]⟩) ⟨sp, off, n⟩
      (BitVec.ofNat (8 * n) (leNat (loadBytes (s.bytes SpaceId.ram) (a.setWidth 64) n))) := by
  have hram : SpaceId.ram ≠ SpaceId.const := by decide
  have hexec : execute un s ⟨.load, some ⟨sp, off, n⟩, [memorySpace, addr]⟩ =
      if n > 8 then .ok (s.writeWide ⟨sp, off, n⟩ (s.readWide ⟨.ram, s.readVarnode addr, n⟩))
      else .ok (s.writeVarnode ⟨sp, off, n⟩ (s.readMemory (s.readVarnode addr) n)) := rfl
  have hmem : s.readMemory (a.setWidth 64) n =
      (value s ⟨.ram, a.setWidth 64, n⟩).setWidth 64 :=
    readVarnode_eq_value s hn fun hc => absurd hc hram
  rw [hexec, if_neg (by omega), ha.readVarnode, hmem]
  refine stores_writeVarnode s hn ?_
  have hcut := cut_ext (show 8 * n ≤ 64 by omega)
    (value s ⟨.ram, a.setWidth 64, n⟩)
  exact hcut.trans (if_neg hram)

theorem bytes_store (ha : Holds s addr a) (hx : x.size ≤ 8)
    (hv : (s.readVarnode x).toNat % 256 ^ x.size = v.toNat % 256 ^ x.size) :
    ∃ s', execute un s ⟨.store, none, [memorySpace, addr, x]⟩ = .ok s' ∧
      s'.bytes = PageAccess.stored s.bytes .ram (a.setWidth 64) (toLeBytes x.size v) := by
  have hexec : execute un s ⟨.store, none, [memorySpace, addr, x]⟩ =
      if x.size > 8 then
        .ok (s.writeWide ⟨1, s.readVarnode addr, x.size⟩ (s.readWide x))
      else .ok (s.writeMemory (s.readVarnode addr) x.size (s.readVarnode x)) := rfl
  rw [hexec, if_neg (by omega), ha.readVarnode]
  refine ⟨_, rfl, ?_⟩
  rw [← toLeBytes_congr hv]
  have hbytes := EmulatorState.bytes_writeVarnode s ⟨.ram, a.setWidth 64, x.size⟩
    (s.readVarnode x)
  rwa [min_eq_left hx] at hbytes

theorem readVarnode_register (r : Reg) (hn : n ≤ 4) :
    (s.readVarnode (if r = 0 then constant 0 n else register r n)).toNat % 256 ^ n =
      ((view s).read r).toNat % 256 ^ n := by
  unfold State.read
  split
  · rfl
  · have hread := @readVarnode_eq_value s ⟨SpaceId.register, BitVec.ofNat 64 (4 * r.toNat), n⟩
      (hn.trans (by decide)) fun hc => absurd hc register_ne_const
    have hlt := leNat_lt (loadBytes (s.bytes SpaceId.register) (BitVec.ofNat 64 (4 * r.toNat)) 4)
    rw [length_loadBytes, show 256 ^ 4 = 2 ^ 32 from rfl] at hlt
    rw [register_eq, hread, ext_toNat (show 8 * n ≤ 64 by omega), value,
      if_neg register_ne_const, toNat_ofNat, ← pow_256, Nat.mod_mod]
    change _ = (registerAt s r.toNat).toNat % _
    rw [registerAt, toNat_ofNat, Nat.mod_eq_of_lt hlt, leNat_loadBytes_mod _ _ hn]
    exact leNat_loadBytes_mod _ _ (le_refl n)

end Memory

namespace Instruction

/-- What the operations do: every access carried out, the upper half of a product left out. -/
def emulated (st : State) : Instruction → State
  | mult signed rs rt => { perform st (mult signed rs rt) with hi := st.hi }
  | i => perform st i

section

variable {un : Uninterpreted} {em : Emulator}

theorem computes_binop {oc : OpCode} {x y : VarnodeData} {u v w : Word} (r : Reg)
    (hx : Holds em.state x u) (hy : Holds em.state y v) (hfit : SizesFit oc 4 [4, 4])
    (hw : binaryResult oc (8 * 4) u v = w) :
    Computes un em (binop r oc x y) ((view em.state).write r w) :=
  computes_into fun _ => computes_result (stores_pair hx hy hfit hw)

theorem computes_copyInto {x : VarnodeData} {v : Word} (r : Reg) (hx : Holds em.state x v) :
    Computes un em (copyInto r x) ((view em.state).write r v) :=
  computes_into fun _ => computes_result (stores_single hx rfl (setWidth_eq v))

theorem computes_nor (rd rs rt : Reg) :
    Computes un em (ops (nor rd rs rt)) (perform (view em.state) (nor rd rs rt)) := by
  refine computes_into fun _ => ?_
  refine computes_unique (show 4 ≤ 8 by decide)
    (stores_pair (holds_regIn rs) (holds_regIn rt) ⟨rfl, rfl⟩ rfl) fun em' hview hvalue => ?_
  rw [← hview]
  refine computes_result (stores_single (holds_unique hvalue) rfl ?_)
  simp [unaryResult, binaryResult, sameWidthResult, hview]

theorem low_product (signed : Bool) (x y : Word) :
    (product signed x y).setWidth 32 = binaryResult .intMult (8 * 4) x y := by
  have hresult : binaryResult .intMult (8 * 4) x y = x * y := by
    simp [binaryResult, sameWidthResult]
  rw [hresult]
  cases signed
  · exact cut_mul (by decide) x y
  · have hself : ∀ z : Word, (z.signExtend 64).setWidth 32 = z := fun z =>
      (cut_signExtend (by decide) z).trans (signExtend_eq z)
    exact (setWidth_mul _ _ (by decide)).trans (congrArg₂ (· * ·) (hself x) (hself y))

theorem computes_shiftVar (op : ShiftOp) (rd rt rs : Reg) :
    Computes un em (ops (shiftVar op rd rt rs)) (perform (view em.state) (shiftVar op rd rt rs)) := by
  refine computes_into fun _ => ?_
  refine computes_unique (show 4 ≤ 8 by decide)
    (stores_pair (holds_regIn rs) (holds_constant 0x1F) ⟨rfl, rfl⟩ rfl) fun em' hview hvalue => ?_
  have hcount : (binaryResult .intAnd (8 * 4) ((view em.state).read rs) (0x1F : Word)).toNat =
      ((view em.state).read rs).toNat % 32 := by
    simp [binaryResult, sameWidthResult]
    exact Nat.and_two_pow_sub_one_eq_mod _ 5
  rw [← hview]
  refine computes_result (stores_pair (holds_regIn rt) (holds_unique hvalue) op.fits ?_)
  rw [op.result_eq, hcount, hview]

theorem quotient_eq {y : Word} (hy : y ≠ 0) (signed : Bool) (x : Word) :
    binaryResult (if signed then .intSDiv else .intDiv) (8 * 4) x y = quotient signed x y := by
  have hy : ¬ y = 0#32 := hy
  cases signed <;> simp [binaryResult, sameWidthResult, quotient, hy]

theorem remainder_eq {y : Word} (hy : y ≠ 0) (signed : Bool) (x : Word) :
    binaryResult (if signed then .intSRem else .intRem) (8 * 4) x y = remainder signed x y := by
  have hy : ¬ y = 0#32 := hy
  cases signed <;> simp [binaryResult, sameWidthResult, remainder, hy]

theorem computes_div {signed : Bool} {rs rt : Reg} (h : (view em.state).read rt ≠ 0) :
    Computes un em (ops (div signed rs rt)) (perform (view em.state) (div signed rs rt)) := by
  have hfit : SizesFit (if signed then .intSDiv else .intDiv) 4 [4, 4] ∧
      SizesFit (if signed then .intSRem else .intRem) 4 [4, 4] := by
    cases signed <;> exact ⟨⟨rfl, rfl⟩, ⟨rfl, rfl⟩⟩
  refine computes_slot (k := 34) (by decide) (by decide)
    (stores_pair (holds_regIn rs) (holds_regIn rt) hfit.1 (quotient_eq h _ _))
    fun em' hview => ?_
  have hread : (view em'.state).read = (view em.state).read := by
    rw [hview, set_lo]
    rfl
  refine computes_slot (k := 33) (by decide) (by decide)
    (stores_pair (holds_regIn rs) (holds_regIn rt) hfit.2 (remainder_eq (hread ▸ h) _ _))
    fun em'' hview' => computes_nil ?_
  rw [hview', hread, hview, set_hi, set_lo]
  rfl

theorem add_result (x y : Word) : binaryResult .intAdd (8 * 4) x y = x + y := by
  simp [binaryResult, sameWidthResult]

theorem computes_narrow {a : Word} {n : ℕ} {signed : Bool} {r : Reg} (hn : WordSize n) (h4 : n ≤ 4)
    (ha : Holds em.state (unique 0x300 4) a) :
    Computes un em [⟨.load, some (unique 0x310 n), [memorySpace, unique 0x300 4]⟩,
      ⟨if signed then .intSExt else .intZExt, some (slot r.toNat), [unique 0x310 n]⟩]
      ((view em.state).set r.toNat
        (let v := BitVec.ofNat (8 * n) (leNat (loadBytes (view em.state).mem (a.setWidth 64) n))
        if signed then v.signExtend 32 else v.setWidth 32)) := by
  refine computes_unique hn.le (stores_load ha hn.le) fun em' hview hvalue => ?_
  have hfit : SizesFit (if signed then .intSExt else .intZExt) 4 [n] := by cases signed <;> exact h4
  have hstore := @stores_one un em'.state (slot r.toNat) (unique 0x310 n) _ hfit
    (by simp [slot, WordSize]) hn fun hc => absurd hc unique_ne_const
  rw [← hview]
  refine computes_result ?_
  rw [hvalue] at hstore
  rw [hview]
  cases signed <;> exact hstore

theorem computes_load (w : Width) (signed : Bool) (rt base : Reg) (offset : Word) :
    Computes un em (ops (load w signed rt base offset))
      (perform (view em.state) (load w signed rt base offset)) := by
  refine computes_into fun _ => computes_unique (show 4 ≤ 8 by decide)
    (stores_pair (holds_regIn base) (holds_constant offset) ⟨rfl, rfl⟩ (add_result _ _))
    fun em' hview hvalue => ?_
  rw [← hview] at hvalue ⊢
  have haddr := holds_unique hvalue
  cases w with
  | byte => exact computes_narrow (.inl rfl) (by decide) haddr
  | half => exact computes_narrow (.inr (.inl rfl)) (by decide) haddr
  | word =>
    have hself : loaded .word signed (view em'.state).mem ((view em'.state).read base + offset) =
        BitVec.ofNat 32 (leNat (loadBytes (em'.state.bytes .ram)
          (((view em'.state).read base + offset).setWidth 64) 4)) := by
      cases signed
      · exact setWidth_eq _
      · exact signExtend_eq _
    refine computes_result ?_
    rw [hself]
    exact stores_load haddr (show 4 ≤ 8 by decide)

theorem computes_store (w : Width) (rt base : Reg) (offset : Word) :
    Computes un em (ops (store w rt base offset))
      (perform (view em.state) (store w rt base offset)) := by
  refine computes_unique (show 4 ≤ 8 by decide)
    (stores_pair (holds_regIn base) (holds_constant offset) ⟨rfl, rfl⟩ (add_result _ _))
    fun em' hview hvalue => ?_
  have hw : w.bytes ≤ 4 := by cases w <;> decide
  have hsize : (if rt = 0 then constant 0 w.bytes else register rt w.bytes).size = w.bytes := by
    split <;> rfl
  obtain ⟨s', hs, hbytes⟩ := @bytes_store un _ _
    (if rt = 0 then constant 0 w.bytes else register rt w.bytes) _ ((view em'.state).read rt)
    (holds_unique hvalue) (by omega) (by rw [hsize]; exact readVarnode_register rt hw)
  refine computes_cons hs (computes_nil ?_)
  rw [view_ram hbytes, hsize, hview]
  rfl

theorem computes_ops (i : Instruction) (h : i.DivisorNonzero (view em.state)) :
    Computes un em i.ops (i.emulated (view em.state)) := by
  cases i with
  | alu op rd rs b =>
    exact computes_binop rd (holds_regIn rs) (holds_source em.state b) op.fits (op.result_eq _ _)
  | nor rd rs rt => exact computes_nor rd rs rt
  | shift op rd rt sa =>
    have hcount : (sa.setWidth 32).toNat = sa.toNat := ext_toNat (by decide) sa
    have hconst : constant (sa.setWidth 64) 4 = constant ((sa.setWidth 32).setWidth 64) 4 := rfl
    refine computes_binop rd (holds_regIn rt) (hconst ▸ holds_constant (sa.setWidth 32)) op.fits ?_
    rw [op.result_eq, hcount]
  | shiftVar op rd rt rs => exact computes_shiftVar op rd rt rs
  | lui rt imm =>
    have hconst : imm.setWidth 64 <<< 16 = (imm ++ 0#16).setWidth 64 := by
      have happend : (imm ++ 0#16 : Word).toNat = imm.toNat <<< 16 ||| 0 :=
        toNat_append imm 0#16
      apply eq_of_toNat_eq
      rw [ext_toNat (by decide), happend, Nat.or_zero, toNat_shiftLeft,
        ext_toNat (by decide), Nat.shiftLeft_eq]
      omega
    exact computes_copyInto rt (hconst ▸ holds_constant (imm ++ 0#16))
  | mfhi rd => exact computes_copyInto rd (holds_slot 33)
  | mflo rd => exact computes_copyInto rd (holds_slot 34)
  | mthi rs =>
    refine computes_slot (k := 33) (by decide) (by decide)
      (stores_single (holds_regIn rs) rfl (setWidth_eq _)) fun em' hview => computes_nil ?_
    rw [hview, set_hi]
    rfl
  | mtlo rs =>
    refine computes_slot (k := 34) (by decide) (by decide)
      (stores_single (holds_regIn rs) rfl (setWidth_eq _)) fun em' hview => computes_nil ?_
    rw [hview, set_lo]
    rfl
  | mult signed rs rt =>
    refine computes_slot (k := 34) (by decide) (by decide)
      (stores_pair (holds_regIn rs) (holds_regIn rt) ⟨rfl, rfl⟩ (low_product signed _ _).symm)
      fun em' hview => computes_nil ?_
    rw [hview, set_lo]
    rfl
  | div signed rs rt => exact computes_div h
  | load w signed rt base offset => exact computes_load w signed rt base offset
  | store w rt base offset => exact computes_store w rt base offset

/-- The code does what the manual defines in every state but those in which a product has an
upper half that `HI` does not already hold, or an access at a misaligned address, which the
processor refuses, would change something. -/
def Meets (st : State) (i : Instruction) : Prop :=
  (∀ signed rs rt, i = mult signed rs rt →
      st.hi = (product signed (st.read rs) (st.read rt)).extractLsb' 32 32) ∧
    (i.addressError st = true → i.perform st = st)

theorem emulated_eq_exec (st : State) (i : Instruction) : i.emulated st = i.exec st ↔ i.Meets st := by
  have hexec : i.perform st = i.exec st ↔ (i.addressError st = true → i.perform st = st) := by
    unfold exec
    split
    · next h => exact ⟨fun heq _ => heq, fun heq => heq h⟩
    · next h => exact iff_of_true rfl fun hc => absurd hc h
  cases i with
  | mult signed rs rt =>
    constructor
    · intro h
      refine ⟨fun _ _ _ heq => ?_, fun hc => absurd hc Bool.false_ne_true⟩
      cases heq
      exact congrArg State.hi h
    · intro h
      exact State.ext rfl (h.1 _ _ _ rfl) rfl rfl rfl
  | _ => exact hexec.trans ⟨fun h => ⟨fun _ _ _ hc => (by cases hc), h⟩, And.right⟩

end

end Instruction

theorem Computes.unique {un : Uninterpreted} {em : Emulator} {ops : List PcodeOp} {st st' : State}
    (h : Computes un em ops st) (h' : Computes un em ops st') : st = st' :=
  h.2.symm.trans h'.2

/-- The lifted operations of a word leave registers and memory as the manual defines exactly
when no upper half of a product is lost and no misaligned access changes anything. -/
theorem liftWord_computes_iff (un : Uninterpreted) (em : Emulator) (word : Word) (address : U64)
    (i : Instruction) (hdecode : decode word = some i) (hdiv : i.DivisorNonzero (view em.state)) :
    Computes un em (liftWord word address) (i.exec (view em.state)) ↔ i.Meets (view em.state) := by
  rw [liftWord_of_decode address hdecode, ← i.emulated_eq_exec]
  have hops := @Instruction.computes_ops un em i hdiv
  exact ⟨fun h => hops.unique h, fun h => h ▸ hops⟩

/-- `2 ^ 16` in the fourth register, the others zero. -/
def powerOfTwo : Emulator := ⟨EmulatorState.new.writeVarnode (slot 4) 0x10000, 0⟩

theorem view_powerOfTwo : view powerOfTwo.state = (view EmulatorState.new).set 4 0x10000 :=
  view_slot (by decide) (by decide) (EmulatorState.bytes_writeVarnode _ (slot 4) 0x10000)

/-- `div $a1, $a0`, a division by the power. -/
theorem liftWord_computes_div :
    Computes (fun s _ => .ok s) powerOfTwo (liftWord 0x00A4001A 0x1000)
      (Instruction.exec (view powerOfTwo.state) (.div true 5 4)) := by
  have hdiv : (Instruction.div true 5 4).DivisorNonzero (view powerOfTwo.state) := by
    rw [view_powerOfTwo]
    exact show ((view EmulatorState.new).set 4 0x10000).read 4 ≠ 0 by decide
  refine (liftWord_computes_iff _ powerOfTwo 0x00A4001A 0x1000 (.div true 5 4) rfl hdiv).mpr ?_
  exact ⟨fun _ _ _ h => (by cases h), fun h => absurd h Bool.false_ne_true⟩

/-- `mult $a0, $a0` leaves zero in `HI`, where the square of the power has a one. -/
theorem liftWord_loses_upper_half :
    decode 0x00840018 = some (.mult true 4 4) ∧
      ¬ Computes (fun s _ => .ok s) powerOfTwo (liftWord 0x00840018 0x1000)
        (Instruction.exec (view powerOfTwo.state) (.mult true 4 4)) := by
  refine ⟨rfl, fun h => ?_⟩
  have hops := @Instruction.computes_ops (fun s _ => .ok s) powerOfTwo
    (.mult true 4 4) trivial
  have hmeets := (Instruction.emulated_eq_exec _ _).mp (hops.unique h)
  have hhi := hmeets.1 true 4 4 rfl
  rw [view_powerOfTwo] at hhi
  exact absurd hhi (by decide)

/-- A run of the processor over words that do not jump, the code right about each of them. -/
inductive Runs : List (Word × U64) → State → State → Prop where
  | nil (st) : Runs [] st st
  | cons {word address i words st st'} (hdecode : decode word = some i)
      (hdiv : i.DivisorNonzero st) (hmeets : i.Meets st) (hrest : Runs words (i.exec st) st') :
      Runs ((word, address) :: words) st st'

theorem Computes.append {un em ops rest st st'} (h : Computes un em ops st)
    (hrest : ∀ em' : Emulator, view em'.state = st → Computes un em' rest st') :
    Computes un em (ops ++ rest) st' := by
  induction ops generalizing em with
  | nil => exact hrest em h.2
  | cons op ops ih =>
    unfold Computes at h ⊢
    rw [List.cons_append, executeOps]
    rw [executeOps] at h
    generalize em.executeOp un op = r at h ⊢
    obtain ⟨em', e | _⟩ := r
    · cases h.1
    · exact ih h

/-- The operations of the words, one after another, take the emulator where the words take the
processor. -/
theorem liftWords_compute {words st st'} (h : Runs words st st') (un : Uninterpreted)
    (em : Emulator) (hview : view em.state = st) :
    Computes un em (words.flatMap fun w => liftWord w.1 w.2) st' := by
  induction h generalizing em with
  | nil => exact computes_nil hview
  | cons hdecode hdiv hmeets _ ih =>
    subst hview
    rw [List.flatMap_cons, liftWord_of_decode _ hdecode]
    have hops := @Instruction.computes_ops un em _ hdiv
    rw [(Instruction.emulated_eq_exec _ _).mpr hmeets] at hops
    exact hops.append ih

/-- `mtlo $a0` and `mflo $v0`. -/
theorem liftWords_compute_move :
    Computes (fun s _ => .ok s) powerOfTwo
      ([(0x00800013, 0x1000), (0x00001012, 0x1004)].flatMap fun w => liftWord w.1 w.2)
      ((Instruction.mflo 2).exec (Instruction.exec (view powerOfTwo.state) (.mtlo 4))) :=
  liftWords_compute
    (.cons (i := .mtlo 4) rfl trivial
      ⟨fun _ _ _ h => (by cases h), fun h => absurd h Bool.false_ne_true⟩
      (.cons (i := .mflo 2) rfl trivial
        ⟨fun _ _ _ h => (by cases h), fun h => absurd h Bool.false_ne_true⟩ (.nil _))) _ _ rfl

end MipsDataFlow
