import Reargo.ModifiedUtf8

/-!
# Class files

The reader of class files over a byte slice. A fault is an error the reader returns, an index
outside its slice, or an overflow of its counter, though a release build goes on with the
wrapped one. The text of a floating-point number is a parameter.
-/
namespace ClassFiles

open PcodeModel ModifiedUtf8

abbrev U32 := BitVec 32

inductive JvmError where
  | truncated (pos : ℕ)
  | badMagic (magic : U32)
  | badConstantTag (tag : Byte) (index : ℕ)
  | badOpcode (opcode : ℕ) (pc : ℕ)
  deriving DecidableEq, Repr

inductive Fault where
  | error (e : JvmError)
  | overflow
  | outOfRange
  deriving DecidableEq, Repr

/-- Big-endian cursor over a byte slice. -/
structure Reader where
  data : List Byte
  pos : ℕ

abbrev ReadM := StateT Reader (Except Fault)

def fail {α : Type} (f : Fault) : ReadM α := fun _ => .error f

/-- A sum past the last machine word is also past the end of the data. -/
def bytes (n : ℕ) : ReadM (List Byte) := fun r =>
  if r.pos + n ≤ r.data.length then
    .ok ((r.data.drop r.pos).take n, { r with pos := r.pos + n })
  else .error (.error (.truncated r.pos))

def index (bs : List Byte) (i : ℕ) : ReadM Byte := fun r =>
  match bs[i]? with
  | some b => .ok (b, r)
  | none => .error .outOfRange

def u8 : ReadM Byte := do
  let b ← bytes 1
  index b 0

def u16 : ReadM U16 := do
  let b ← bytes 2
  return (← index b 0) ++ (← index b 1)

def u32 : ReadM U32 := do
  let b ← bytes 4
  return ((← index b 0) ++ (← index b 1)) ++ ((← index b 2) ++ (← index b 3))

def u64 : ReadM U64 := do
  let high ← u32
  let low ← u32
  return (high.setWidth 64 <<< 32) ||| low.setWidth 64

def times {α : Type} (p : ReadM α) : ℕ → ReadM (List α)
  | 0 => return []
  | n + 1 => do
    let a ← p
    return a :: (← times p n)

/-- A reader of its own over a slice. -/
def within {α : Type} (body : List Byte) (p : ReadM α) : ReadM α := fun r =>
  match p ⟨body, 0⟩ with
  | .ok (a, _) => .ok (a, r)
  | .error f => .error f

inductive Constant where
  | unusable
  | utf8 (s : String)
  | integer (v : U32)
  | float (bits : U32)
  | long (v : U64)
  | double (bits : U64)
  | class (name : U16)
  | string (utf8 : U16)
  | fieldRef (class_ nameAndType : U16)
  | methodRef (class_ nameAndType : U16)
  | interfaceMethodRef (class_ nameAndType : U16)
  | nameAndType (name descriptor : U16)
  | methodHandle (kind : Byte) (reference : U16)
  | methodType (descriptor : U16)
  | dynamic (bootstrap nameAndType : U16)
  | invokeDynamic (bootstrap nameAndType : U16)
  | module (name : U16)
  | package (name : U16)
  deriving DecidableEq

def Constant.wide : Constant → Bool
  | .long _ | .double _ => true
  | _ => false

def readConstant (tag : Byte) (i : ℕ) : ReadM Constant := do
  match tag.toNat with
  | 1 =>
    let len ← u16
    return .utf8 (decode_modified_utf8 (← bytes len.toNat))
  | 3 => return .integer (← u32)
  | 4 => return .float (← u32)
  | 5 => return .long (← u64)
  | 6 => return .double (← u64)
  | 7 => return .class (← u16)
  | 8 => return .string (← u16)
  | 9 => return .fieldRef (← u16) (← u16)
  | 10 => return .methodRef (← u16) (← u16)
  | 11 => return .interfaceMethodRef (← u16) (← u16)
  | 12 => return .nameAndType (← u16) (← u16)
  | 15 => return .methodHandle (← u8) (← u16)
  | 16 => return .methodType (← u16)
  | 17 => return .dynamic (← u16) (← u16)
  | 18 => return .invokeDynamic (← u16) (← u16)
  | 19 => return .module (← u16)
  | 20 => return .package (← u16)
  | _ => fail (.error (.badConstantTag tag i))

def readEntry (i : ℕ) : ReadM Constant := do
  let tag ← u8
  readConstant tag i

/-- `i += 1` on a 16-bit counter. -/
def increment (i : ℕ) : ReadM ℕ := if i + 1 < 2 ^ 16 then return i + 1 else fail .overflow

def parseSlots (count i : ℕ) : ReadM (List Constant) := do
  if _h : i < count then
    let c ← readEntry i
    let _ ← increment i
    if c.wide then
      let _ ← increment (i + 1)
      return c :: .unusable :: (← parseSlots count (i + 2))
    else return c :: (← parseSlots count (i + 1))
  else return []
termination_by count - i

def parseConstants : ReadM (List Constant) := do
  let count ← u16
  return .unusable :: (← parseSlots count.toNat 1)

def constant (pool : List Constant) (i : U16) : Option Constant := pool[i.toNat]?

def utf8 (pool : List Constant) (i : U16) : Option String := do
  match ← constant pool i with
  | .utf8 s => some s
  | _ => none

def className (pool : List Constant) (i : U16) : Option String := do
  match ← constant pool i with
  | .class name => utf8 pool name
  | _ => none

def nameAndType (pool : List Constant) (i : U16) : Option (String × String) := do
  match ← constant pool i with
  | .nameAndType name descriptor => return (← utf8 pool name, ← utf8 pool descriptor)
  | _ => none

structure MemberRef where
  owner : String
  name : String
  descriptor : String
  deriving DecidableEq

def memberRef (pool : List Constant) (i : U16) : Option MemberRef := do
  let (cls, nat) ← match ← constant pool i with
    | .fieldRef cls nat | .methodRef cls nat | .interfaceMethodRef cls nat => some (cls, nat)
    | _ => none
  let (name, descriptor) ← nameAndType pool nat
  return ⟨← className pool cls, name, descriptor⟩

def stringConstant (pool : List Constant) (i : U16) : Option String := do
  match ← constant pool i with
  | .string s => utf8 pool s
  | _ => none

structure ExceptionEntry where
  startPc : U16
  endPc : U16
  handlerPc : U16
  catchType : Option String

structure Code where
  maxStack : U16
  maxLocals : U16
  bytecode : List Byte
  exceptions : List ExceptionEntry
  lineNumbers : List (U16 × U16)

structure Member where
  access : U16
  name : String
  descriptor : String
  signature : Option String
  code : Option Code
  constantValue : Option U16

structure ClassFile where
  minorVersion : U16
  majorVersion : U16
  constants : List Constant
  access : U16
  name : String
  superName : Option String
  interfaces : List String
  fields : List Member
  methods : List Member
  sourceFile : Option String
  signature : Option String

def readAttribute : ReadM (U16 × List Byte) := do
  let name ← u16
  let len ← u32
  return (name, ← bytes len.toNat)

/-- A 16-bit field at the start of an attribute. -/
def leadingU16 (body : List Byte) : ReadM U16 := return (← index body 0) ++ (← index body 1)

def exceptionEntry (pool : List Constant) : ReadM ExceptionEntry := do
  let start_pc ← u16
  let end_pc ← u16
  let handler_pc ← u16
  let ct ← u16
  return ⟨start_pc, end_pc, handler_pc, className pool ct⟩

def codeAttribute (pool : List Constant) : ReadM (List (U16 × U16)) := do
  let (name, attr) ← readAttribute
  if utf8 pool name = some "LineNumberTable" then
    within attr do
      let count ← u16
      times (do return (← u16, ← u16)) count.toNat
  else return []

def lineLe (a b : U16 × U16) : Bool :=
  a.1.toNat < b.1.toNat || (a.1 = b.1 && a.2.toNat ≤ b.2.toNat)

def parseCode (pool : List Constant) : ReadM Code := do
  let max_stack ← u16
  let max_locals ← u16
  let len ← u32
  let bytecode ← bytes len.toNat
  let n ← u16
  let exceptions ← times (exceptionEntry pool) n.toNat
  let n ← u16
  let line_numbers ← times (codeAttribute pool) n.toNat
  return ⟨max_stack, max_locals, bytecode, exceptions, line_numbers.flatten.mergeSort lineLe⟩

def memberAttribute (pool : List Constant) (m : Member) : ReadM Member := do
  let (attr_name, body) ← readAttribute
  match utf8 pool attr_name with
  | some "Code" => return { m with code := some (← within body (parseCode pool)) }
  | some "Signature" =>
    if 2 ≤ body.length then return { m with signature := utf8 pool (← leadingU16 body) } else return m
  | some "ConstantValue" =>
    if 2 ≤ body.length then return { m with constantValue := some (← leadingU16 body) } else return m
  | _ => return m

def iterate {α : Type} (p : α → ReadM α) : ℕ → α → ReadM α
  | 0, a => return a
  | n + 1, a => do iterate p n (← p a)

def parseMember (pool : List Constant) : ReadM Member := do
  let access ← u16
  let name := (utf8 pool (← u16)).getD "<invalid>"
  let descriptor := (utf8 pool (← u16)).getD "<invalid>"
  let n ← u16
  iterate (memberAttribute pool) n.toNat ⟨access, name, descriptor, none, none, none⟩

def classAttribute (cf : ClassFile) : ReadM ClassFile := do
  let (name, body) ← readAttribute
  match utf8 cf.constants name with
  | some "SourceFile" =>
    if 2 ≤ body.length then
      return { cf with sourceFile := utf8 cf.constants (← leadingU16 body) }
    else return cf
  | some "Signature" =>
    if 2 ≤ body.length then
      return { cf with signature := utf8 cf.constants (← leadingU16 body) }
    else return cf
  | _ => return cf

def parseBody (minor_version major_version : U16) (pool : List Constant) : ReadM ClassFile := do
  let access ← u16
  let this_idx ← u16
  let super_idx ← u16
  let n ← u16
  let interfaces ← times (do return (className pool (← u16)).getD "<invalid>") n.toNat
  let n ← u16
  let fields ← times (parseMember pool) n.toNat
  let n ← u16
  let methods ← times (parseMember pool) n.toNat
  let n ← u16
  iterate classAttribute n.toNat
    { minorVersion := minor_version
      majorVersion := major_version
      constants := pool
      access := access
      name := (className pool this_idx).getD "<invalid>"
      superName := className pool super_idx
      interfaces := interfaces
      fields := fields
      methods := methods
      sourceFile := none
      signature := none }

def parseM : ReadM ClassFile := do
  let magic ← u32
  if magic ≠ 0xCAFEBABE then fail (.error (.badMagic magic))
  else
    let minor_version ← u16
    let major_version ← u16
    let constants ← parseConstants
    parseBody minor_version major_version constants

def parse (data : List Byte) : Except Fault ClassFile :=
  match parseM ⟨data, 0⟩ with
  | .ok (cf, _) => .ok cf
  | .error f => .error f

/-- The text of floating-point numbers by their bits. -/
structure FloatText where
  float : U32 → String
  double : U64 → String

def hexDigit (n : ℕ) : Char := if n < 10 then Char.ofNat (0x30 + n) else Char.ofNat (0x57 + n)

/-- The escape of a character in a string literal. -/
def escape (c : Char) : List Char :=
  if c = '"' then ['\\', '"']
  else if c = '\\' then ['\\', '\\']
  else if c = '\n' then ['\\', 'n']
  else if c = '\r' then ['\\', 'r']
  else if c = '\t' then ['\\', 't']
  else if c.toNat < 0x20 then
    ['\\', 'u', '0', '0', hexDigit (c.toNat / 16), hexDigit (c.toNat % 16)]
  else [c]

def quote (s : String) : String := String.ofList ('"' :: (s.toList.flatMap escape ++ ['"']))

def display {n : ℕ} (v : BitVec n) : String := toString v.toInt

/-- A rendering of at most this many nested constants; none where it is not at its end. -/
def displayConstant (ft : FloatText) (pool : List Constant) : ℕ → U16 → Option String
  | 0, _ => none
  | depth + 1, i =>
    match constant pool i with
    | none => some ("<bad #" ++ toString i.toNat ++ ">")
    | some (.unusable) => some "<unusable>"
    | some (.utf8 s) => some (quote s)
    | some (.integer v) => some (display v)
    | some (.float bits) => some (ft.float bits ++ "f")
    | some (.long v) => some (display v ++ "L")
    | some (.double bits) => some (ft.double bits ++ "d")
    | some (.class _) => some ((className pool i).getD "?")
    | some (.string _) => some (quote ((stringConstant pool i).getD "?"))
    | some (.fieldRef _ _) | some (.methodRef _ _) | some (.interfaceMethodRef _ _) =>
      some (match memberRef pool i with
        | some m => m.owner ++ "." ++ m.name ++ ":" ++ m.descriptor
        | none => "?")
    | some (.nameAndType _ _) =>
      some (match nameAndType pool i with
        | some (n, d) => n ++ ":" ++ d
        | none => "?")
    | some (.methodHandle kind reference) =>
      (displayConstant ft pool depth reference).map fun text =>
        "MethodHandle[" ++ toString kind.toNat ++ "] " ++ text
    | some (.methodType descriptor) =>
      some ("MethodType " ++ (utf8 pool descriptor).getD "?")
    | some (.dynamic bootstrap nat) | some (.invokeDynamic bootstrap nat) =>
      some (match nameAndType pool nat with
        | some (n, d) => "#" ++ toString bootstrap.toNat ++ ":" ++ n ++ ":" ++ d
        | none => "?")
    | some (.module name) | some (.package name) => some ((utf8 pool name).getD "?")

end ClassFiles
