import Reargo.GdbRegisters
import Reargo.OperationLocality

/-!
# Snapshots of the emulator

A manager keeps the last snapshots taken. Restoring one brings back the sixteen registers as
they were when it was taken, byte by byte, and leaves every other byte of the state alone.
-/
namespace Snapshots

open PcodeModel EmulatorMemory LittleEndian OperationLocality OrderedMap List
open GdbStub (regs regs_eq toLeBytes_fromLeBytes)
open EmulatorState (access)

/-- The registers that are dumped, by name. -/
def registerOffsets : List (String × U64) :=
  [("RAX", 0x00), ("RCX", 0x08), ("RDX", 0x10), ("RBX", 0x18), ("RSP", 0x20), ("RBP", 0x28),
    ("RSI", 0x30), ("RDI", 0x38), ("R8", 0x80), ("R9", 0x88), ("R10", 0x90), ("R11", 0x98),
    ("R12", 0xA0), ("R13", 0xA8), ("R14", 0xB0), ("R15", 0xB8)]

def dumpRegisters (s : EmulatorState) : List (String × U64) :=
  registerOffsets.map fun r => (r.1, access.readRegister s r.2 8)

def offsetOf (name : String) : U64 :=
  match name with
  | "RAX" => 0x00 | "RCX" => 0x08 | "RDX" => 0x10 | "RBX" => 0x18
  | "RSP" => 0x20 | "RBP" => 0x28 | "RSI" => 0x30 | "RDI" => 0x38
  | "R8" => 0x80 | "R9" => 0x88 | "R10" => 0x90 | "R11" => 0x98
  | "R12" => 0xA0 | "R13" => 0xA8 | "R14" => 0xB0 | "R15" => 0xB8
  | _ => 0xFF

structure StateSnapshot where
  step : U64
  address : U64
  registers : OrdMap U64 U64
  memoryRegions : List (U64 × List Byte)

structure SnapshotManager where
  snapshots : List StateSnapshot
  maxSnapshots : ℕ

def captured (s : EmulatorState) (step address : U64) : StateSnapshot where
  step := step
  address := address
  registers := (((dumpRegisters s).map fun r => (offsetOf r.1, r.2)).filter fun r => r.1 ≠ 0xFF).foldl
    (fun m r => m.insert r.1 r.2) .empty
  memoryRegions := []

namespace SnapshotManager

def new (max : ℕ) : SnapshotManager := ⟨[], max⟩

/-- The oldest makes room when there are as many as may be kept. -/
def capture (m : SnapshotManager) (s : EmulatorState) (step address : U64) : SnapshotManager :=
  let kept := if m.maxSnapshots ≤ m.snapshots.length ∧ 0 < m.maxSnapshots then m.snapshots.drop 1
    else m.snapshots
  { m with snapshots := kept ++ [captured s step address] }

def get (m : SnapshotManager) (index : ℕ) : Option StateSnapshot := m.snapshots[index]?

end SnapshotManager

def restore (t : EmulatorState) (snapshot : StateSnapshot) : EmulatorState :=
  let t := snapshot.registers.entries.foldl (fun t r => access.writeRegister t r.1 8 r.2) t
  snapshot.memoryRegions.foldl (fun t r => access.loadMemoryBytes t r.1 r.2) t

/-- A state captured, with the step and the address noted. -/
abbrev Capture := EmulatorState × U64 × U64

def run (max : ℕ) (captures : List Capture) : SnapshotManager :=
  captures.foldl (fun m c => m.capture c.1 c.2.1 c.2.2) (.new max)

/-- How many of `n` snapshots have made room. -/
def dropped (max n : ℕ) : ℕ := if max = 0 then 0 else n - max

variable {s t : EmulatorState} {sp : SpaceId} {a : U64}

theorem run_spec (max : ℕ) (captures : List Capture) :
    (run max captures).maxSnapshots = max ∧ (run max captures).snapshots =
      (captures.map fun c => captured c.1 c.2.1 c.2.2).drop (dropped max captures.length) := by
  induction captures using List.reverseRecOn with
  | nil => exact ⟨rfl, by simp [run, SnapshotManager.new]⟩
  | append_singleton captures c ih =>
    obtain ⟨hmax, hkept⟩ := ih
    rw [run, foldl_append, foldl_cons, foldl_nil, ← run, SnapshotManager.capture]
    refine ⟨hmax, ?_⟩
    simp only [hmax, hkept, length_drop, length_map, map_append, map_cons, map_nil, length_append,
      length_cons, length_nil, drop_drop]
    unfold dropped
    by_cases h0 : max = 0
    · simp [h0]
    · rw [if_neg h0, if_neg h0]
      by_cases hfull : max ≤ captures.length
      · rw [if_pos (by omega), drop_append_of_le_length (by simp; omega),
          show captures.length + 1 - max = captures.length - max + 1 by omega]
      · rw [if_neg (by omega), drop_append_of_le_length (by simp; omega),
          show captures.length + 1 - max = captures.length - max by omega]

theorem bytes_writeBack (off : U64) :
    (access.writeRegister t off 8 (regs s off)).bytes sp a =
      if sp = .register ∧ (a - off).toNat < 8 then s.bytes sp a else t.bytes sp a := by
  have hstored := EmulatorState.bytes_writeVarnode t ⟨.register, off, 8⟩ (regs s off)
  refine (congrFun (congrFun hstored sp) a).trans ?_
  have hbytes : toLeBytes (min 8 8) (regs s off) = loadBytes (s.bytes .register) off 8 := by
    rw [regs_eq]
    exact toLeBytes_fromLeBytes (length_loadBytes ..)
  rw [hbytes, stored_apply (by rw [length_loadBytes]; decide)]
  by_cases hsp : sp = .register
  · rw [if_pos hsp, hsp]
    by_cases hin : (a - off).toNat < 8
    · rw [if_pos ⟨rfl, hin⟩, loadBytes, getElem?_map, getElem?_range hin, Option.map_some,
        Option.getD_some, BitVec.ofNat_toNat, BitVec.setWidth_eq, BitVec.add_comm,
        BitVec.sub_add_cancel]
    · rw [if_neg fun h => hin h.2,
        getElem?_eq_none ((length_loadBytes ..).trans_le (Nat.le_of_not_lt hin)), Option.getD_none]
  · rw [if_neg hsp, if_neg fun h => hsp h.1]

/-- A byte of one of the registers at `offsets`. -/
def InRegisters (offsets : List U64) (sp : SpaceId) (a : U64) : Prop :=
  sp = .register ∧ ∃ off ∈ offsets, (a - off).toNat < 8

instance (offsets : List U64) : Decidable (InRegisters offsets sp a) :=
  inferInstanceAs (Decidable (_ ∧ _))

theorem bytes_writeBacks (offsets : List U64) (t : EmulatorState) :
    (offsets.foldl (fun t off => access.writeRegister t off 8 (regs s off)) t).bytes sp a =
      if InRegisters offsets sp a then s.bytes sp a else t.bytes sp a := by
  induction offsets generalizing t with
  | nil => simp [InRegisters]
  | cons off offsets ih =>
    rw [foldl_cons, ih, bytes_writeBack]
    simp only [InRegisters, exists_mem_cons_iff]
    by_cases hsp : sp = .register
    · by_cases hin : (a - off).toNat < 8
      · simp only [hsp, hin, true_and, true_or, if_true, ite_self]
      · simp only [hsp, hin, true_and, false_or, if_false]
    · simp only [hsp, false_and, if_false]

theorem registers_captured (s : EmulatorState) (step address : U64) :
    (captured s step address).registers.entries =
      (registerOffsets.map Prod.snd).map fun off => (off, regs s off) := by
  have hnames : ∀ r ∈ registerOffsets, offsetOf r.1 = r.2 ∧ r.2 ≠ 0xFF := by decide
  have hlist : (dumpRegisters s).map (fun r => (offsetOf r.1, r.2)) =
      (registerOffsets.map Prod.snd).map fun off => (off, regs s off) := by
    rw [dumpRegisters, map_map, map_map]
    exact map_congr_left fun r hr => Prod.ext (hnames r hr).1 rfl
  have hkept : ((dumpRegisters s).map fun r => (offsetOf r.1, r.2)).filter (fun r => r.1 ≠ 0xFF) =
      (registerOffsets.map Prod.snd).map fun off => (off, regs s off) := by
    rw [hlist]
    refine filter_eq_self.mpr fun e he => ?_
    obtain ⟨off, hoff, rfl⟩ := mem_map.mp he
    obtain ⟨r, hr, rfl⟩ := mem_map.mp hoff
    exact decide_eq_true (hnames r hr).2
  unfold captured
  simp only
  rw [hkept]
  refine OrdMap.entries_foldl_insert _ .empty ?_
  have hascending : (registerOffsets.map Prod.snd).Pairwise (· < ·) := by decide
  rw [OrdMap.empty, nil_append, map_map]
  exact (map_id _).symm ▸ hascending

theorem bytes_restore (step address : U64) :
    (restore t (captured s step address)).bytes sp a =
      if InRegisters (registerOffsets.map Prod.snd) sp a then s.bytes sp a else t.bytes sp a := by
  have hfold : restore t (captured s step address) = (registerOffsets.map Prod.snd).foldl
      (fun t off => access.writeRegister t off 8 (regs s off)) t := by
    have hregions : (captured s step address).memoryRegions = [] := rfl
    rw [restore, registers_captured, foldl_map, hregions, foldl_nil]
  rw [hfold, bytes_writeBacks]

/-- After any captures, the snapshot at an index is of the state captured that many after those
that made room, and restoring it into any state brings back exactly that state's registers. -/
theorem restore_brings_back_registers (max i : ℕ) (captures : List Capture) (snapshot : StateSnapshot)
    (h : (run max captures).get i = some snapshot) :
    ∃ c, captures[dropped max captures.length + i]? = some c ∧ snapshot = captured c.1 c.2.1 c.2.2 ∧
      ∀ t sp a, (restore t snapshot).bytes sp a =
        if InRegisters (registerOffsets.map Prod.snd) sp a then c.1.bytes sp a else t.bytes sp a := by
  rw [SnapshotManager.get, (run_spec max captures).2, getElem?_drop, getElem?_map] at h
  obtain ⟨c, hc, rfl⟩ := Option.map_eq_some_iff.mp h
  exact ⟨c, hc, rfl, fun t sp a => bytes_restore _ _⟩

theorem restore_brings_back_zero :
    ∃ snapshot,
      (run 1 [(access.writeRegister .new 0x08 8 5, 0, 0), (.new, 1, 0)]).get 0 = some snapshot ∧
      ∀ t, (restore t snapshot).bytes .register 0x08 = EmulatorState.new.bytes .register 0x08 := by
  have hget : (run 1 [(access.writeRegister .new 0x08 8 5, 0, 0), (.new, 1, 0)]).get 0 =
      some (captured .new 1 0) := by
    rw [SnapshotManager.get, (run_spec _ _).2]
    rfl
  obtain ⟨c, hc, -, hbytes⟩ := restore_brings_back_registers 1 0 _ _ hget
  cases hc
  have hin : InRegisters (registerOffsets.map Prod.snd) .register 0x08 :=
    ⟨rfl, 0x08, mem_map.mpr ⟨("RCX", 0x08), by decide, rfl⟩, by decide⟩
  exact ⟨_, hget, fun t => (hbytes t _ _).trans (if_pos hin)⟩

end Snapshots
