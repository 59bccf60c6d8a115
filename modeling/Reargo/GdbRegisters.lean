import Reargo.GdbStub

/-!
# The register block

The registers of the block stand apart from each other, so that a block written reads back
register by register; what follows the registers is read as zero.
-/
namespace GdbStub

open PcodeModel EmulatorMemory LittleEndian List

def regs (s : EmulatorState) (off : U64) : U64 := EmulatorState.access.readRegister s off 8

/-- Two registers without a byte in common. -/
def Apart (off off' : U64) : Prop := 8 ≤ (off' - off).toNat ∧ 8 ≤ (off - off').toNat

instance (off off' : U64) : Decidable (Apart off off') := inferInstanceAs (Decidable (_ ∧ _))

theorem layout_apart : ∀ off ∈ AMD64_GPR_LAYOUT, ∀ off' ∈ AMD64_GPR_LAYOUT,
    off = off' ∨ Apart off off' := by
  -- over the rows of the list, not over all offsets
  have rows : (AMD64_GPR_LAYOUT.all fun off => AMD64_GPR_LAYOUT.all fun off' =>
      decide (off = off' ∨ Apart off off')) = true := by decide
  intro off ho off' ho'
  exact of_decide_eq_true (all_eq_true.mp (all_eq_true.mp rows off ho) off' ho')

theorem leNat_injective {bs cs : List Byte} (hl : bs.length = cs.length)
    (h : leNat bs = leNat cs) : bs = cs := by
  induction bs generalizing cs with
  | nil => exact (length_eq_zero_iff.mp hl.symm).symm
  | cons b bs ih =>
    cases cs with
    | nil => cases hl
    | cons c cs =>
      unfold leNat at h
      have low : b = c := BitVec.eq_of_toNat_eq (by omega)
      rw [low, ih (Nat.succ.inj hl) (by omega)]

theorem toLeBytes_fromLeBytes {bs : List Byte} (h : bs.length = 8) :
    toLeBytes 8 (fromLeBytes bs) = bs := by
  apply leNat_injective ((length_toLeBytes _ _).trans h.symm)
  have small := leNat_lt bs
  rw [leNat_toLeBytes, fromLeBytes, BitVec.toNat_ofNat]
  rw [h] at small
  omega

theorem fromLeBytes_toLeBytes (v : U64) : fromLeBytes (toLeBytes 8 v) = v := by
  apply BitVec.eq_of_toNat_eq
  have := v.isLt
  rw [fromLeBytes, BitVec.toNat_ofNat, leNat_toLeBytes]
  omega

theorem regs_eq (s : EmulatorState) (off : U64) :
    regs s off = fromLeBytes (loadBytes (s.bytes SpaceId.register) off 8) := by
  have ram : SpaceId.register ≠ SpaceId.const := by decide
  unfold regs PageAccess.readRegister
  rw [PageAccess.readVarnode_eq ram]
  rfl

theorem bytes_writeRegister (s : EmulatorState) (off v : U64) :
    (EmulatorState.access.writeRegister s off 8 v).bytes .register =
      storeBytes (s.bytes .register) off (toLeBytes 8 v) := by
  have stored := EmulatorState.bytes_writeVarnode s ⟨.register, off, 8⟩ v
  exact (congrFun stored .register).trans (Function.update_self _ _ _)

theorem regs_write_self (s : EmulatorState) (off v : U64) :
    regs (EmulatorState.access.writeRegister s off 8 v) off = v := by
  have load := loadBytes_storeBytes (s.bytes .register) off (toLeBytes 8 v)
    (by rw [length_toLeBytes]; decide)
  rw [length_toLeBytes] at load
  rw [regs_eq, bytes_writeRegister, load, fromLeBytes_toLeBytes]

theorem regs_write_apart (s : EmulatorState) {off off' : U64} (v : U64) (h : Apart off off') :
    regs (EmulatorState.access.writeRegister s off 8 v) off' = regs s off' := by
  have short : (toLeBytes 8 v).length ≤ 2 ^ 64 := by rw [length_toLeBytes]; decide
  rw [regs_eq, regs_eq, bytes_writeRegister]
  congr 1
  apply map_congr_left
  intro i hi
  have hi := mem_range.mp hi
  obtain ⟨above, below⟩ := h
  have far : (toLeBytes 8 v).length ≤ (off' + BitVec.ofNat 64 i - off).toNat := by
    rw [length_toLeBytes]
    bv_omega
  rw [storeBytes_apply _ _ _ _ short, getElem?_eq_none far, Option.getD_none]

/-- The `i`-th eight bytes of a block. -/
def word (data : List Byte) (i : ℕ) : List Byte := (data.drop (8 * i)).take 8

theorem regs_written {data : List Byte} (l : List (U64 × ℕ)) (s : EmulatorState)
    (distinct : (l.map Prod.fst).Nodup)
    (apart : ∀ p ∈ l, ∀ off' ∈ AMD64_GPR_LAYOUT, p.1 = off' ∨ Apart p.1 off')
    (long : ∀ p ∈ l, p.2 * 8 + 8 ≤ data.length) :
    (∀ p ∈ l, p.1 ∈ AMD64_GPR_LAYOUT →
        regs (l.foldl (write_word data) s) p.1 = fromLeBytes (word data p.2)) ∧
      ∀ off ∈ AMD64_GPR_LAYOUT, off ∉ l.map Prod.fst →
        regs (l.foldl (write_word data) s) off = regs s off := by
  induction l generalizing s with
  | nil => exact ⟨by simp, fun _ _ _ => rfl⟩
  | cons p l ih =>
    rw [map_cons, nodup_cons] at distinct
    obtain ⟨written, kept⟩ := ih (write_word data s p) distinct.2
      (fun q hq => apart q (mem_cons_of_mem _ hq))
      (fun q hq => long q (mem_cons_of_mem _ hq))
    have first : write_word data s p =
        EmulatorState.access.writeRegister s p.1 8 (fromLeBytes (word data p.2)) := by
      rw [write_word, if_pos (long p mem_cons_self), word, mul_comm]
    rw [foldl_cons]
    constructor
    · intro q hq inside
      rcases mem_cons.mp hq with rfl | hq
      · rw [kept q.1 inside distinct.1, first, regs_write_self]
      · exact written q hq inside
    · intro off inside hoff
      rw [map_cons, mem_cons, not_or] at hoff
      rw [kept off inside hoff.2, first]
      exact regs_write_apart s _ ((apart p mem_cons_self off inside).resolve_left
        (Ne.symm hoff.1))

theorem words_take (data : List Byte) (n : ℕ) :
    (List.range n).flatMap (word data) = data.take (8 * n) := by
  induction n with
  | zero => rfl
  | succ n ih =>
    rw [range_succ, flatMap_append, ih, Nat.mul_succ, take_add]
    simp [word]

section Target

variable {R : Type}

theorem regs_written_target (t : EmulatorTarget R) {data : List Byte}
    (h : 17 * 8 ≤ data.length) (p : U64 × ℕ) (hp : p ∈ AMD64_GPR_LAYOUT.zipIdx) :
    toLeBytes 8 (regs (EmulatorState.access.writeRegister (write_registers t data).state
      AMD64_PC_OFFSET 8 (write_registers t data).pc) p.1) = word data p.2 := by
  have indexed : ∀ p ∈ AMD64_GPR_LAYOUT.zipIdx, p.1 ∈ AMD64_GPR_LAYOUT ∧ p.2 < 17 := by decide
  obtain ⟨inside, bound⟩ := indexed p hp
  have back : regs (amd64_write_registers t.state data) p.1 = fromLeBytes (word data p.2) :=
    (regs_written AMD64_GPR_LAYOUT.zipIdx t.state (by decide)
      (fun p hp off' ho => layout_apart p.1 (indexed p hp).1 off' ho)
      (fun p hp => by have := (indexed p hp).2; omega)).1 p hp inside
  -- the program counter is written back with the value it was read with
  have pc : regs (EmulatorState.access.writeRegister (write_registers t data).state
      AMD64_PC_OFFSET 8 (write_registers t data).pc) p.1 =
        regs (amd64_write_registers t.state data) p.1 := by
    rcases layout_apart AMD64_PC_OFFSET (by decide) p.1 inside with same | apart
    · rw [← same]
      exact regs_write_self _ _ _
    · exact regs_write_apart _ _ apart
  rw [pc, back, toLeBytes_fromLeBytes]
  rw [word, length_take, length_drop]
  omega

theorem read_written (t : EmulatorTarget R) {data : List Byte} (h : 17 * 8 ≤ data.length) :
    read_registers (write_registers t data) = data.take 136 ++ List.replicate 28 0 := by
  have positions : AMD64_GPR_LAYOUT.zipIdx.map Prod.snd = range 17 := by decide
  have offsets : AMD64_GPR_LAYOUT = AMD64_GPR_LAYOUT.zipIdx.map Prod.fst := by decide
  have row : AMD64_GPR_LAYOUT.flatMap (fun off => toLeBytes 8 (regs
      (EmulatorState.access.writeRegister (write_registers t data).state AMD64_PC_OFFSET 8
        (write_registers t data).pc) off)) = data.take 136 := by
    rw [offsets, flatMap_map, flatMap_congr (regs_written_target t h),
      ← flatMap_map, positions, words_take]
  exact congrArg (· ++ replicate 28 0) row

theorem read_registers_length (t : EmulatorTarget R) :
    (read_registers t).length = AMD64_REG_BLOCK_LEN := by
  simp [read_registers, amd64_read_registers, AMD64_GPR_LAYOUT, AMD64_REG_BLOCK_LEN]

end Target

end GdbStub
