import Reargo.EmulatorMemory
import Reargo.LoadedMemory

/-!
# The stub of the debugger protocol

The emulated target behind the stub, with the register block of the protocol, and the handling of
one packet. Text is a list of characters, cut at byte positions; a panic is no result. Addresses
wrap around, as in a release build. Execution of instructions is a parameter.
-/
namespace GdbStub

open PcodeModel EmulatorMemory LittleEndian LoadedMemory

inductive StopReason where
  | trap
  | exited (code : Byte)
  | signal (s : Byte)
  deriving DecidableEq, Repr

/-- The live emulator; `rest` is what only the execution of instructions uses. -/
structure EmulatorTarget (R : Type) where
  state : EmulatorState
  memory : Memory
  pc : U64
  breakpoints : List U64
  rest : R

def AMD64_PC_OFFSET : U64 := 0x288

/-- The registers in the order of the block. -/
def AMD64_GPR_LAYOUT : List U64 :=
  [0x00, 0x18, 0x08, 0x10, 0x30, 0x38, 0x28, 0x20, 0x80, 0x88, 0x90, 0x98, 0xA0, 0xA8, 0xB0, 0xB8,
    AMD64_PC_OFFSET]

def AMD64_REG_BLOCK_LEN : ℕ := 17 * 8 + 7 * 4

/-- The flags and the segment registers are reported as zero. -/
def amd64_read_registers (state : EmulatorState) : List Byte :=
  (AMD64_GPR_LAYOUT.flatMap fun off => toLeBytes 8 (EmulatorState.access.readRegister state off 8)) ++
    List.replicate (7 * 4) 0

/-- A register with its position in the block, when the block reaches it. -/
def write_word (data : List Byte) (state : EmulatorState) (p : U64 × ℕ) : EmulatorState :=
  let start := p.2 * 8
  if start + 8 ≤ data.length then
    EmulatorState.access.writeRegister state p.1 8 (fromLeBytes ((data.drop start).take 8))
  else state

def amd64_write_registers (state : EmulatorState) (data : List Byte) : EmulatorState :=
  AMD64_GPR_LAYOUT.zipIdx.foldl (write_word data) state

section Target

variable {R : Type}

def read_registers (t : EmulatorTarget R) : List Byte :=
  amd64_read_registers (EmulatorState.access.writeRegister t.state AMD64_PC_OFFSET 8 t.pc)

def write_registers (t : EmulatorTarget R) (data : List Byte) : EmulatorTarget R :=
  let state := amd64_write_registers t.state data
  { t with state := state, pc := EmulatorState.access.readRegister state AMD64_PC_OFFSET 8 }

/-- The most bytes that a vector can be asked to hold. -/
def capacity : ℕ := 2 ^ 63 - 1

/-- The bytes come from the loaded image; the address wraps around. -/
def read_memory (t : EmulatorTarget R) (addr : U64) (len : ℕ) : Option (List Byte) :=
  if capacity < len then none
  else some ((List.range len).map fun i => (t.memory.readByte (addr + BitVec.ofNat 64 i)).getD 0)

def write_memory (t : EmulatorTarget R) (addr : U64) (data : List Byte) : EmulatorTarget R :=
  { t with state := EmulatorState.access.loadMemoryBytes t.state addr data }

/-- An ordered set. -/
def add_breakpoint (t : EmulatorTarget R) (addr : U64) : EmulatorTarget R :=
  { t with breakpoints := t.breakpoints.insert addr }

def remove_breakpoint (t : EmulatorTarget R) (addr : U64) : EmulatorTarget R :=
  { t with breakpoints := t.breakpoints.erase addr }

end Target

abbrev Text := List Char

/-- The length in bytes. -/
def len (s : Text) : ℕ := (s.map Char.utf8Size).sum

/-- What stands behind a number of bytes, unless they end inside a character. -/
def dropBytes : ℕ → Text → Option Text
  | 0, s => some s
  | _ + 1, [] => none
  | n + 1, c :: s => if c.utf8Size ≤ n + 1 then dropBytes (n + 1 - c.utf8Size) s else none

def takeBytes : ℕ → Text → Option Text
  | 0, _ => some []
  | _ + 1, [] => none
  | n + 1, c :: s =>
    if c.utf8Size ≤ n + 1 then (takeBytes (n + 1 - c.utf8Size) s).map (c :: ·) else none

def slice (s : Text) (i j : ℕ) : Option Text := (dropBytes i s).bind (takeBytes (j - i))

def split_once (sep : Char) : Text → Option (Text × Text)
  | [] => none
  | c :: s => if c = sep then some ([], s) else (split_once sep s).map fun p => (c :: p.1, p.2)

def to_digit (c : Char) : Option ℕ :=
  let n := c.toNat
  if 0x30 ≤ n ∧ n ≤ 0x39 then some (n - 0x30)
  else if 0x61 ≤ n ∧ n ≤ 0x66 then some (n - 0x61 + 10)
  else if 0x41 ≤ n ∧ n ≤ 0x46 then some (n - 0x41 + 10)
  else none

/-- The value of a row of digits in front of which a value was read. -/
def digits (acc : ℕ) : Text → Option ℕ
  | [] => some acc
  | c :: s => (to_digit c).bind fun d => digits (16 * acc + d) s

/-- `from_str_radix(s, 16)` of an unsigned type: a plus sign may stand in front. -/
def from_str_radix (w : ℕ) (s : Text) : Option ℕ :=
  let number := match s with
    | '+' :: rest => rest
    | _ => s
  if number = [] then none else (digits 0 number).filter (· < 2 ^ w)

def lowerDigit (n : ℕ) : Char := if n < 10 then Char.ofNat (0x30 + n) else Char.ofNat (0x57 + n)

/-- `{:02x}`. -/
def hexByte (b : Byte) : Text := [lowerDigit (b.toNat / 16), lowerDigit (b.toNat % 16)]

def hex_encode (bytes : List Byte) : Option Text :=
  if capacity < bytes.length * 2 then none else some (bytes.flatMap hexByte)

/-- The pairs at the given positions; the first that is no number ends the row. -/
def decodePairs (s : Text) : List ℕ → Option (Option (List Byte))
  | [] => some (some [])
  | i :: rest =>
    match slice s i (i + 2) with
    | none => none
    | some pair =>
      match from_str_radix 8 pair with
      | none => some none
      | some b => (decodePairs s rest).map (Option.map (BitVec.ofNat 8 b :: ·))

def hex_decode (s : Text) : Option (Option (List Byte)) :=
  if len s % 2 ≠ 0 then some none
  else decodePairs s ((List.range (len s / 2)).map (2 * ·))

/-- The reply and the target behind it. -/
abbrev Handled (R : Type) := Option (Option Text × EmulatorTarget R)

/-- One step or a run up to a breakpoint, unless the emulation panics. -/
abbrev Resume (R : Type) := EmulatorTarget R → Bool → Option (StopReason × EmulatorTarget R)

def E01 : Text := ['E', '0', '1']

def OK : Text := ['O', 'K']

def stop_reply : StopReason → Text
  | .trap => ['S', '0', '5']
  | .signal s => 'S' :: hexByte s
  | .exited code => 'W' :: hexByte code

def parse_addr_len (s : Text) : Option (U64 × U64) := do
  let (a, l) ← split_once ',' s
  let addr ← from_str_radix 64 a
  let len ← from_str_radix 64 l
  return (BitVec.ofNat 64 addr, BitVec.ofNat 64 len)

section Packets

variable {R : Type} (resume : Resume R) (t : EmulatorTarget R)

def reply (text : Text) : Handled R := some (some text, t)

def handle_read_memory (args : Text) : Handled R :=
  match parse_addr_len args with
  | none => reply t E01
  | some (addr, len) =>
    match (read_memory t addr len.toNat).bind hex_encode with
    | none => none
    | some text => reply t text

def handle_write_memory (args : Text) : Handled R :=
  match split_once ':' args with
  | none => reply t E01
  | some (head, hex) =>
    match parse_addr_len head with
    | none => reply t E01
    | some (addr, _) =>
      match hex_decode hex with
      | none => none
      | some (some bytes) => reply (write_memory t addr bytes) OK
      | some none => reply t E01

def handle_write_registers (hex : Text) : Handled R :=
  match hex_decode hex with
  | none => none
  | some (some bytes) => reply (write_registers t bytes) OK
  | some none => reply t E01

def handle_breakpoint (args : Text) (set : Bool) : Handled R :=
  match (args.splitOn ',')[1]? with
  | none => reply t E01
  | some text =>
    match from_str_radix 64 text with
    | none => reply t E01
    | some addr =>
      if set then reply (add_breakpoint t (BitVec.ofNat 64 addr)) OK
      else reply (remove_breakpoint t (BitVec.ofNat 64 addr)) OK

def handle_query (packet : Text) : Text :=
  if "qSupported".toList.isPrefixOf packet then "PacketSize=4000;qXfer:features:read-".toList
  else if "qAttached".toList.isPrefixOf packet then ['1']
  else if packet = "qC".toList then "QC0".toList
  else if packet = "qfThreadInfo".toList then "m0".toList
  else if packet = "qsThreadInfo".toList then ['l']
  else []

def handle_resume (step : Bool) : Handled R :=
  (resume t step).map fun r => (some (stop_reply r.1), r.2)

def handle_v_packet (packet : Text) : Handled R :=
  if packet = "vCont?".toList then reply t "vCont;c;s".toList
  else if "vCont;".toList.isPrefixOf packet then
    let action := (packet.drop 6).takeWhile (· ≠ ';')
    handle_resume resume t (action.head? = some 's')
  else reply t []

def handle_packet (packet : Text) : Handled R :=
  match packet with
  | [] => some (none, t)
  | '?' :: _ => reply t ['S', '0', '5']
  | 'g' :: _ =>
    match hex_encode (read_registers t) with
    | none => none
    | some text => reply t text
  | 'G' :: args => handle_write_registers t args
  | 'm' :: args => handle_read_memory t args
  | 'M' :: args => handle_write_memory t args
  | 'c' :: _ => handle_resume resume t false
  | 's' :: _ => handle_resume resume t true
  | 'Z' :: args => handle_breakpoint t args true
  | 'z' :: args => handle_breakpoint t args false
  | 'q' :: _ => reply t (handle_query packet)
  | 'H' :: _ => reply t OK
  | 'v' :: _ => handle_v_packet resume t packet
  | 'k' :: _ => some (none, t)
  | 'D' :: _ => reply t OK
  | _ => reply t []

end Packets

end GdbStub
