import Reargo.RegisterViews

/-!
# Two machines for the ops of an instruction

One keeps a variable for every offset and size, as SSA does; the other keeps the bytes of the
registers. Both take the values an op computes from the same function, but for the three
opcodes that the added ops use. The bytes are one file, addressed by number: the word some
of them make, and the file after a word is put into them.
-/
namespace ByteFields

abbrev File := ℕ → BitVec 8

/-- The `n` bytes from `a` on, least significant first. -/
def word (f : File) : ℕ → ℕ → ℕ
  | _, 0 => 0
  | a, n + 1 => (f a).toNat + 256 * word f (a + 1) n

def put (f : File) (a n v : ℕ) : File := fun i =>
  if a ≤ i ∧ i < a + n then BitVec.ofNat 8 (v / 256 ^ (i - a)) else f i

variable {f g : File} {a b m n v : ℕ}

theorem word_lt (f : File) (a n : ℕ) : word f a n < 256 ^ n := by
  induction n generalizing a with
  | zero => exact Nat.one_pos
  | succ n ih =>
    have hbyte := (f a).isLt
    have hrest := ih (a + 1)
    simp only [word, pow_succ]
    omega

theorem word_congr (h : ∀ i, a ≤ i → i < a + n → f i = g i) : word f a n = word g a n := by
  induction n generalizing a with
  | zero => rfl
  | succ n ih =>
    simp only [word]
    rw [h a (le_refl _) (by omega), ih fun i hle hlt => h i (by omega) (by omega)]

theorem word_add (f : File) (a m n : ℕ) :
    word f a (m + n) = word f a m + 256 ^ m * word f (a + m) n := by
  induction m generalizing a with
  | zero => simp only [zero_add, word, Nat.pow_zero, one_mul, add_zero]
  | succ m ih =>
    have hshift : a + 1 + m = a + (m + 1) := by omega
    rw [add_right_comm, word, ih, word, hshift, pow_succ]
    ring

theorem word_mod (f : File) (a : ℕ) (h : m ≤ n) : word f a n % 256 ^ m = word f a m := by
  obtain ⟨k, rfl⟩ := Nat.exists_eq_add_of_le h
  rw [word_add, Nat.add_mul_mod_self_left, Nat.mod_eq_of_lt (word_lt f a m)]

theorem word_div (f : File) (a m n : ℕ) : word f a (m + n) / 256 ^ m = word f (a + m) n := by
  have hpos : 0 < 256 ^ m := Nat.pow_pos (by decide)
  rw [word_add, Nat.add_mul_div_left _ _ hpos, Nat.div_eq_of_lt (word_lt f a m), zero_add]

theorem word_put_off (h : b + m ≤ a ∨ a + n ≤ b) : word (put f a n v) b m = word f b m := by
  apply word_congr
  intro i hle hlt
  rw [put, if_neg (by omega)]

theorem word_put_self (f : File) (a n v : ℕ) : word (put f a n v) a n = v % 256 ^ n := by
  induction n generalizing a v with
  | zero => rw [word, Nat.pow_zero, Nat.mod_one]
  | succ n ih =>
    have hfirst : ((put f a (n + 1) v) a).toNat = v % 256 := by
      rw [put, if_pos ⟨le_refl _, by omega⟩, Nat.sub_self, Nat.pow_zero, Nat.div_one,
        BitVec.toNat_ofNat]
    have hrest : word (put f a (n + 1) v) (a + 1) n =
        word (put f (a + 1) n (v / 256)) (a + 1) n := by
      apply word_congr
      intro i hle hlt
      rw [put, put, if_pos ⟨by omega, by omega⟩, if_pos ⟨hle, hlt⟩, Nat.div_div_eq_div_mul,
        ← Nat.pow_succ', show (i - (a + 1)).succ = i - a by omega]
    rw [word, hfirst, hrest, ih, Nat.pow_succ', Nat.mod_mul]

theorem word_put_low (f : File) (a v : ℕ) (h : m ≤ n) : word (put f a n v) a m = v % 256 ^ m := by
  rw [← word_mod _ a h, word_put_self, Nat.mod_mod_of_dvd _ (pow_dvd_pow 256 h)]

theorem word_put_high (f : File) (a v : ℕ) (h : n ≤ m) :
    word (put f a n v) a m / 256 ^ n = word f a m / 256 ^ n := by
  obtain ⟨k, rfl⟩ := Nat.exists_eq_add_of_le h
  rw [word_div, word_div, word_put_off (.inr (le_refl _))]

end ByteFields

namespace ViewMachines

open PcodeModel RegisterViews ByteFields

section Machines

/-- How a machine keeps the values of varnodes. -/
structure Registers (S : Type) where
  read : S → VarnodeData → ℕ
  write : S → VarnodeData → ℕ → S

variable {S M : Type}

def operand (R : Registers S) (s : S) (v : VarnodeData) : ℕ :=
  if v.space = SpaceId.const then v.offset.toNat else R.read s v

def value (sem : PcodeOp → List ℕ → M → ℕ × M) (op : PcodeOp) (ins : List ℕ) (m : M) : ℕ × M :=
  match op.opcode, op.inputs, ins with
  | .subpiece, _, [x, k] => (x / 256 ^ k, m)
  | .piece, [_, low], [x, y] => (x * 256 ^ low.size + y, m)
  | .intZExt, _, [x] => (x, m)
  | _, _, _ => sem op ins m

def exec (R : Registers S) (sem : PcodeOp → List ℕ → M → ℕ × M) (op : PcodeOp) (s : S × M) :
    S × M :=
  let (x, m) := value sem op (op.inputs.map (operand R s.1)) s.2
  match op.output with
  | some out => (R.write s.1 out (x % 256 ^ out.size), m)
  | none => (s.1, m)

def execAll (R : Registers S) (sem : PcodeOp → List ℕ → M → ℕ × M) (ops : List PcodeOp)
    (s : S × M) : S × M :=
  ops.foldl (fun s op => exec R sem op s) s

def inputsOf (R : Registers S) (sem : PcodeOp → List ℕ → M → ℕ × M) :
    List PcodeOp → S × M → List (List ℕ)
  | [], _ => []
  | op :: ops, s => op.inputs.map (operand R s.1) :: inputsOf R sem ops (exec R sem op s)

variable (R : Registers S) (sem : PcodeOp → List ℕ → M → ℕ × M)

include R sem

theorem execAll_append (ops rest : List PcodeOp) (s : S × M) :
    execAll R sem (ops ++ rest) s = execAll R sem rest (execAll R sem ops s) :=
  List.foldl_append

theorem inputsOf_append (ops rest : List PcodeOp) (s : S × M) :
    inputsOf R sem (ops ++ rest) s =
      inputsOf R sem ops s ++ inputsOf R sem rest (execAll R sem ops s) := by
  induction ops generalizing s with
  | nil => rfl
  | cons op ops ih =>
    simp only [List.cons_append, inputsOf, ih]
    rfl

theorem length_inputsOf
    (ops : List PcodeOp) (s : S × M) : (inputsOf R sem ops s).length = ops.length := by
  induction ops generalizing s with
  | nil => rfl
  | cons op ops ih => simp only [inputsOf, List.length_cons, ih]

end Machines

section Variables

abbrev Vars := (v : VarnodeData) → Fin (256 ^ v.size)

def perVarnode : Registers Vars where
  read s v := s v
  write s v x := Function.update s v ⟨x % 256 ^ v.size, Nat.mod_lt _ (Nat.pow_pos (by decide))⟩

theorem read_write (s : Vars) (out v : VarnodeData) (x : ℕ) :
    perVarnode.read (perVarnode.write s out x) v =
      if v = out then x % 256 ^ v.size else perVarnode.read s v := by
  simp only [perVarnode]
  split
  next heq =>
    subst heq
    rw [Function.update_self]
  next hne => rw [Function.update_of_ne hne]

end Variables

section Bytes

/-- The bytes of the general and XMM registers, and the other varnodes' variables. -/
structure Bytewise where
  file : File
  vars : Vars

def inFiles (v : VarnodeData) : Bool :=
  v.space == SpaceId.register && (decide (v.offset.toNat < 0xC0) ||
    (decide (xmmBase.toNat ≤ v.offset.toNat) &&
      decide (v.offset.toNat < xmmBase.toNat + 16 * 0x10)))

/-- The bytes a write changes: a 4-byte write of a general register clears its upper half, a
write of an XMM register the bytes above with `zeroUpper`. -/
def written (zeroUpper : Bool) (v : VarnodeData) : ℕ :=
  if gprView v && v.size == 4 then 8
  else if xmmView v && zeroUpper then 16
  else v.size

def bytewise (zeroUpper : Bool) : Registers Bytewise where
  read s v := if inFiles v then word s.file v.offset.toNat v.size else perVarnode.read s.vars v
  write s v x :=
    if inFiles v then { s with file := put s.file v.offset.toNat (written zeroUpper v) x }
    else { s with vars := perVarnode.write s.vars v x }

end Bytes

end ViewMachines
