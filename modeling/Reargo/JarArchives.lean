import Reargo.LittleEndian
import Reargo.Utf8

/-!
# JAR archives

The reader of ZIP archives: the central directory (with ZIP64), stored and deflated entries.
Inflating is a parameter. The bytes of an archive are written from its files, and the reader gives
the files back when no end record signature stands behind the archive's own.
-/
namespace JarArchives

open PcodeModel LittleEndian Utf8 List

/-- The errors of reading an archive. -/
inductive JvmError where
  | io (message : String)
  | truncated (pos : ℕ)
  | zip (message : String)
  deriving DecidableEq, Repr

def eocdSig : ℕ := 0x06054b50
def zip64LocatorSig : ℕ := 0x07064b50
def zip64EocdSig : ℕ := 0x06064b50
def centralSig : ℕ := 0x02014b50
def localSig : ℕ := 0x04034b50

structure ZipEntry where
  name : List Char
  method : ℕ
  flags : ℕ
  compressedSize : ℕ
  uncompressedSize : ℕ
  localHeaderOffset : ℕ
  deriving DecidableEq, Repr

structure Jar where
  data : List Byte
  entries : List ZipEntry

/-- A sum past the last machine word is also past the end of the data. -/
def get (b : List Byte) (pos n : ℕ) : Option (List Byte) :=
  if pos + n ≤ b.length then some ((b.drop pos).take n) else none

def bytes (b : List Byte) (pos n : ℕ) : Except JvmError (List Byte) :=
  match get b pos n with
  | some s => .ok s
  | none => .error (.truncated pos)

def number (n : ℕ) (b : List Byte) (pos : ℕ) : Except JvmError ℕ := do return leNat (← bytes b pos n)

def le16 : List Byte → ℕ → Except JvmError ℕ := number 2

def le32 : List Byte → ℕ → Except JvmError ℕ := number 4

def le64 (b : List Byte) (pos : ℕ) : Except JvmError ℕ := do
  let low ← le32 b pos
  let high ← le32 b (pos + 4)
  return low ||| high <<< 32

/-- A saturated field's 64-bit value, and where the next one stands. -/
def replace (body : List Byte) (k field : ℕ) : Except JvmError (ℕ × ℕ) :=
  if field = 0xFFFFFFFF then do return (← le64 body k, k + 8) else return (field, k)

def applyZip64Extra (extra : List Byte) (pos usize csize offset : ℕ) :
    Except JvmError (ℕ × ℕ × ℕ) :=
  if pos + 4 ≤ extra.length then do
    let hdr ← bytes extra pos 4
    let id := leNat (hdr.take 2)
    let len := leNat (hdr.drop 2)
    let body ← bytes extra (pos + 4) len
    if id ≠ 1 then applyZip64Extra extra (pos + 4 + len) usize csize offset
    else do
      let (usize, k) ← replace body 0 usize
      let (csize, k) ← replace body k csize
      let (offset, _) ← replace body k offset
      return (usize, csize, offset)
  else return (usize, csize, offset)
termination_by extra.length - pos
decreasing_by omega

/-- `(lo..hi).rev().find(p)`. -/
def findLast (p : ℕ → Bool) (lo : ℕ) : ℕ → Option ℕ
  | 0 => none
  | i + 1 => if i < lo then none else if p i then some i else findLast p lo i

def hasSig (data : List Byte) (i : ℕ) : Bool := decide (le32 data i = .ok eocdSig)

/-- The end record is 22 bytes plus a comment of up to 65535 bytes. -/
def findEocd (data : List Byte) : Option ℕ :=
  findLast (hasSig data) (data.length - (22 + 0xFFFF)) (data.length - 22 + 1)

def zip64Directory (data : List Byte) (locator : ℕ) : Except JvmError (ℕ × ℕ) := do
  let z64 ← le64 data (locator + 8)
  if (← le32 data z64) ≠ zip64EocdSig then
    throw (.zip "bad ZIP64 end of central directory")
  else return (← le64 data (z64 + 32), ← le64 data (z64 + 48))

/-- The number of entries and where the first one stands. -/
def directory (data : List Byte) (eocd : ℕ) : Except JvmError (ℕ × ℕ) := do
  let total ← le16 data (eocd + 10)
  let cdOffset ← le32 data (eocd + 16)
  if (total = 0xFFFF ∨ cdOffset = 0xFFFFFFFF) ∧ 20 ≤ eocd then do
    if (← le32 data (eocd - 20)) = zip64LocatorSig then zip64Directory data (eocd - 20)
    else return (total, cdOffset)
  else return (total, cdOffset)

def readEntry (data : List Byte) (pos : ℕ) : Except JvmError (ZipEntry × ℕ) := do
  if (← le32 data pos) ≠ centralSig then
    throw (.zip ("bad central directory entry at offset " ++ toString pos))
  else
    let flags ← le16 data (pos + 8)
    let method ← le16 data (pos + 10)
    let csize ← le32 data (pos + 20)
    let usize ← le32 data (pos + 24)
    let nameLen ← le16 data (pos + 28)
    let extraLen ← le16 data (pos + 30)
    let commentLen ← le16 data (pos + 32)
    let offset ← le32 data (pos + 42)
    let nameBytes ← bytes data (pos + 46) nameLen
    let name := fromUtf8Lossy nameBytes
    let some extra := get data (pos + 46 + nameLen) extraLen | throw (.truncated pos)
    let (usize, csize, offset) ← applyZip64Extra extra 0 usize csize offset
    return (⟨name, method, flags, csize, usize, offset⟩,
      pos + (46 + nameLen + extraLen + commentLen))

def readEntries (data : List Byte) : ℕ → ℕ → Except JvmError (List ZipEntry)
  | 0, _ => return []
  | total + 1, pos => do
    let (entry, next) ← readEntry data pos
    return entry :: (← readEntries data total next)

def readFrom (data : List Byte) : Option ℕ → Except JvmError (List ZipEntry)
  | none => throw (.zip "end of central directory not found")
  | some eocd => do
    let (total, cdOffset) ← directory data eocd
    readEntries data total cdOffset

def readCentralDirectory (data : List Byte) : Except JvmError (List ZipEntry) :=
  readFrom data (findEocd data)

def Jar.fromBytes (data : List Byte) : Except JvmError Jar := do
  return ⟨data, ← readCentralDirectory data⟩

variable (inflate : List Byte → Except JvmError (List Byte))

/-- Decompressed contents of an entry. -/
def Jar.read (jar : Jar) (entry : ZipEntry) : Except JvmError (List Byte) := do
  let name := String.ofList entry.name
  if entry.flags % 2 ≠ 0 then
    throw (.zip (name ++ ": encrypted entries are not supported"))
  else
    let pos := entry.localHeaderOffset
    if (← le32 jar.data pos) ≠ localSig then
      throw (.zip (name ++ ": bad local header"))
    else
      let start := pos + 30 + (← le16 jar.data (pos + 26)) + (← le16 jar.data (pos + 28))
      let raw ← bytes jar.data start entry.compressedSize
      match entry.method with
      | 0 => return raw
      | 8 => inflate raw
      | m => throw (.zip (name ++ ": unsupported compression method " ++ toString m))

def le (n v : ℕ) : List Byte := toLeBytes n (BitVec.ofNat 64 v)

/-- The fixed part of a header: each field's width and value. -/
def record (fields : List (ℕ × ℕ)) : List Byte := fields.flatMap fun f => le f.1 f.2

/-- A number that does not fit below `top`, or is written in ZIP64 all the same. -/
def saturates (top : ℕ) (wide : Bool) (v : ℕ) : Bool := wide || decide (top ≤ v)

def short (top : ℕ) (wide : Bool) (v : ℕ) : ℕ := if saturates top wide v then top else v

def long (wide : Bool) (v : ℕ) : List Byte :=
  if saturates 0xFFFFFFFF wide v then le 8 v else []

/-- An extra field other than the ZIP64 one. -/
structure Extra where
  id : ℕ
  body : List Byte
  id_lt : id < 2 ^ 16
  other : id ≠ 1
  body_lt : body.length < 2 ^ 16

def Extra.bytes (e : Extra) : List Byte := record [(2, e.id), (2, e.body.length)] ++ e.body

/-- A file of an archive. The fields the reader skips are numbers, cut to their width; the local
header has extra bytes of its own, and the central one fields around its ZIP64 field. -/
structure File where
  name : List Char
  data : List Byte
  deflated : Option (List Byte)
  flags : ℕ
  version : ℕ
  time : ℕ
  crc : ℕ
  attributes : ℕ
  localExtra : List Byte
  before : List Extra
  after : List Extra
  comment : List Byte
  wideSize : Bool
  wideCompressed : Bool
  wideOffset : Bool
  name_lt : (encode name).length < 2 ^ 16
  data_lt : data.length < 2 ^ 64
  flags_lt : flags < 2 ^ 16
  plain : flags % 2 = 0
  localExtra_lt : localExtra.length < 2 ^ 16
  comment_lt : comment.length < 2 ^ 16

namespace File

variable (f : File) (offset : ℕ)

def payload : List Byte := f.deflated.getD f.data

def method : ℕ := if f.deflated.isSome then 8 else 0

def localFields : List (ℕ × ℕ) :=
  [(4, localSig), (2, f.version), (2, f.flags), (2, f.method), (4, f.time), (4, f.crc),
    (4, short 0xFFFFFFFF f.wideCompressed f.payload.length),
    (4, short 0xFFFFFFFF f.wideSize f.data.length), (2, (encode f.name).length),
    (2, f.localExtra.length)]

def localBytes : List Byte :=
  record f.localFields ++ (encode f.name ++ (f.localExtra ++ f.payload))

/-- The values of the ZIP64 field. -/
def longs : List Byte :=
  long f.wideSize f.data.length ++
    (long f.wideCompressed f.payload.length ++ long f.wideOffset offset)

def zip64 : List Byte :=
  if f.longs offset = [] then []
  else record [(2, 1), (2, (f.longs offset).length)] ++ f.longs offset

def extra : List Byte :=
  f.before.flatMap Extra.bytes ++ (f.zip64 offset ++ f.after.flatMap Extra.bytes)

def centralFields : List (ℕ × ℕ) :=
  [(4, centralSig), (4, f.version), (2, f.flags), (2, f.method), (4, f.time), (4, f.crc),
    (4, short 0xFFFFFFFF f.wideCompressed f.payload.length),
    (4, short 0xFFFFFFFF f.wideSize f.data.length), (2, (encode f.name).length),
    (2, (f.extra offset).length), (2, f.comment.length), (8, f.attributes),
    (4, short 0xFFFFFFFF f.wideOffset offset)]

def centralBytes : List Byte :=
  record (f.centralFields offset) ++ (encode f.name ++ (f.extra offset ++ f.comment))

end File

def place : ℕ → List File → List (File × ℕ)
  | _, [] => []
  | offset, f :: fs => (f, offset) :: place (offset + f.localBytes.length) fs

/-- Files, the archive's comment, and which numbers of the end record are written in ZIP64. -/
structure Layout where
  files : List File
  comment : List Byte
  wideCount : Bool
  wideSize : Bool
  wideOffset : Bool

namespace Layout

variable (a : Layout)

def locals : List Byte := a.files.flatMap File.localBytes

def central : List Byte := (place 0 a.files).flatMap fun p => p.1.centralBytes p.2

def zip64Fields : List (ℕ × ℕ) :=
  [(4, zip64EocdSig), (8, 44), (4, 0), (8, 0), (8, a.files.length), (8, a.files.length),
    (8, a.central.length), (8, a.locals.length)]

def locatorFields : List (ℕ × ℕ) :=
  [(4, zip64LocatorSig), (4, 0), (8, a.locals.length + a.central.length), (4, 1)]

def isZip64 : Bool :=
  saturates 0xFFFF a.wideCount a.files.length ||
    (saturates 0xFFFFFFFF a.wideSize a.central.length ||
      saturates 0xFFFFFFFF a.wideOffset a.locals.length)

def zip64End : List Byte :=
  if a.isZip64 then record a.zip64Fields ++ record a.locatorFields else []

def eocdFields : List (ℕ × ℕ) :=
  [(4, eocdSig), (4, 0), (2, short 0xFFFF a.wideCount a.files.length),
    (2, short 0xFFFF a.wideCount a.files.length),
    (4, short 0xFFFFFFFF a.wideSize a.central.length),
    (4, short 0xFFFFFFFF a.wideOffset a.locals.length), (2, a.comment.length)]

def bytes : List Byte :=
  a.locals ++ (a.central ++ (a.zip64End ++ (record a.eocdFields ++ a.comment)))

/-- Where the end record stands. -/
def eocd : ℕ := a.locals.length + (a.central.length + a.zip64End.length)

end Layout

/-- An archive whose lengths fit their fields. -/
structure Archive extends Layout where
  comment_lt : comment.length < 2 ^ 16
  extra_lt : ∀ p ∈ place 0 files, (p.1.extra p.2).length < 2 ^ 16
  bytes_lt : toLayout.bytes.length < 2 ^ 64

theorem get_append (pre s post : List Byte) :
    get (pre ++ (s ++ post)) pre.length s.length = some s := by
  have fits : pre.length + s.length ≤ (pre ++ (s ++ post)).length := by
    simp only [length_append]
    omega
  rw [get, if_pos fits, drop_left, take_left]

theorem bytes_append (pre s post : List Byte) :
    bytes (pre ++ (s ++ post)) pre.length s.length = .ok s := by
  rw [bytes, get_append]

theorem number_eq {n : ℕ} {b : List Byte} {pos : ℕ} (h : pos + n ≤ b.length) :
    number n b pos = .ok (leNat ((b.drop pos).take n)) := by
  rw [number, bytes, get, if_pos h]
  rfl

@[simp] theorem length_le (n v : ℕ) : (le n v).length = n := length_toLeBytes n _

variable {v : ℕ}

theorem leNat_le {n : ℕ} (hn : n ≤ 8) (hv : v < 256 ^ n) : leNat (le n v) = v := by
  have most : (256 : ℕ) ^ n ≤ 256 ^ 8 := Nat.pow_le_pow_right (by decide) hn
  have fits : v < 2 ^ 64 := by omega
  rw [le, leNat_toLeBytes, BitVec.toNat_ofNat, Nat.mod_eq_of_lt fits, Nat.mod_eq_of_lt hv]

def width (fields : List (ℕ × ℕ)) : ℕ := (fields.map Prod.fst).sum

@[simp] theorem length_record (fields : List (ℕ × ℕ)) : (record fields).length = width fields := by
  simp only [record, width, length_flatMap, length_le]

variable {fields : List (ℕ × ℕ)}

theorem record_split {i w : ℕ} (hi : fields[i]? = some (w, v)) :
    record fields = record (fields.take i) ++ (le w v ++ record (fields.drop (i + 1))) := by
  obtain ⟨hlt, hget⟩ := List.getElem?_eq_some_iff.mp hi
  have split : fields = fields.take i ++ (w, v) :: fields.drop (i + 1) := by
    rw [← hget, ← drop_eq_getElem_cons hlt, take_append_drop]
  conv_lhs => rw [split]
  simp only [record, flatMap_append, flatMap_cons]

theorem number_record (pre post : List Byte) (i : ℕ) {w : ℕ}
    (hi : fields[i]? = some (w, v)) (hw : w ≤ 8) (hv : v < 256 ^ w) :
    number w (pre ++ (record fields ++ post)) (pre.length + width (fields.take i)) = .ok v := by
  have moved : pre ++ (record fields ++ post) =
      (pre ++ record (fields.take i)) ++ (le w v ++ (record (fields.drop (i + 1)) ++ post)) := by
    rw [record_split hi]
    simp only [append_assoc]
  have read := bytes_append (pre ++ record (fields.take i)) (le w v)
    (record (fields.drop (i + 1)) ++ post)
  rw [← moved, length_append, length_record, length_le] at read
  rw [number, read]
  exact congrArg Except.ok (leNat_le hw hv)

theorem le64_eq {b : List Byte} {pos : ℕ} (h : number 8 b pos = .ok v) : le64 b pos = .ok v := by
  by_cases fits : pos + 8 ≤ b.length
  · have halves : (b.drop pos).take 8 = (b.drop pos).take 4 ++ (b.drop (pos + 4)).take 4 := by
      rw [← drop_drop, ← take_add]
    have four : ((b.drop pos).take 4).length = 4 := by
      rw [length_take, length_drop]
      omega
    have low := leNat_lt ((b.drop pos).take 4)
    rw [number_eq fits, halves, leNat_append, four] at h
    rw [four] at low
    rw [le64, le32, number_eq (by omega), number_eq (by omega)]
    rw [← h]
    change Except.ok _ = _
    rw [Nat.or_comm, ← Nat.shiftLeft_add_eq_or_of_lt low, Nat.shiftLeft_eq]
    congr 1
    omega
  · rw [number, bytes, get, if_neg fits] at h
    cases h

theorem le64_append (pre post : List Byte) (hv : v < 2 ^ 64) :
    le64 (pre ++ (le 8 v ++ post)) pre.length = .ok v := by
  have read := bytes_append pre (le 8 v) post
  rw [length_le] at read
  apply le64_eq
  rw [number, read]
  exact congrArg Except.ok (leNat_le le_rfl hv)

theorem replace_long (pre post : List Byte) (wide : Bool) (hv : v < 2 ^ 64) :
    replace (pre ++ (long wide v ++ post)) pre.length (short 0xFFFFFFFF wide v) =
      .ok (v, pre.length + (long wide v).length) := by
  unfold replace long short
  cases hs : saturates 0xFFFFFFFF wide v with
  | true =>
    rw [if_pos rfl, if_pos rfl, if_pos rfl, le64_append pre post hv, length_le]
    rfl
  | false =>
    have small : ¬ 0xFFFFFFFF ≤ v := fun h => by simp [saturates, h] at hs
    rw [if_neg Bool.false_ne_true, if_neg Bool.false_ne_true, if_neg (by omega)]
    rfl

theorem applyZip64Extra_field {id : ℕ} {body : List Byte} (hid : id < 2 ^ 16)
    (hbody : body.length < 2 ^ 16) (pre post : List Byte) (u c o : ℕ) :
    applyZip64Extra (pre ++ ((record [(2, id), (2, body.length)] ++ body) ++ post)) pre.length
        u c o =
      if id ≠ 1 then
        applyZip64Extra (pre ++ ((record [(2, id), (2, body.length)] ++ body) ++ post))
          (pre.length + (4 + body.length)) u c o
      else do
        let (u, k) ← replace body 0 u
        let (c, k) ← replace body k c
        let (o, _) ← replace body k o
        return (u, c, o) := by
  generalize hall : pre ++ ((record [(2, id), (2, body.length)] ++ body) ++ post) = all
  have hdr : bytes all pre.length 4 = .ok (record [(2, id), (2, body.length)]) := by
    rw [← hall, append_assoc (record _)]
    exact bytes_append pre (record [(2, id), (2, body.length)]) (body ++ post)
  have rest : bytes all (pre.length + 4) body.length = .ok body := by
    have read := bytes_append (pre ++ record [(2, id), (2, body.length)]) body post
    rw [length_append, length_record] at read
    rw [← hall, append_assoc (record _), ← append_assoc pre]
    exact read
  have first : leNat ((record [(2, id), (2, body.length)]).take 2) = id :=
    leNat_le (n := 2) (by decide) hid
  have second : leNat ((record [(2, id), (2, body.length)]).drop 2) = body.length := by
    have cut : (record [(2, id), (2, body.length)]).drop 2 = le 2 body.length := rfl
    rw [cut]
    exact leNat_le (by decide) hbody
  have long : pre.length + 4 ≤ all.length := by
    have four : (record [(2, id), (2, body.length)]).length = 4 := rfl
    simp only [← hall, length_append, four]
    omega
  conv_lhs => rw [applyZip64Extra]
  rw [if_pos long, hdr]
  change (do
    let taken ← bytes _ (pre.length + 4) _
    _) = _
  rw [second, rest]
  change (if _ then _ else _) = _
  rw [first, add_assoc]

theorem applyZip64Extra_others (es : List Extra) (pre post : List Byte) (u c o : ℕ) :
    applyZip64Extra (pre ++ (es.flatMap Extra.bytes ++ post)) pre.length u c o =
      applyZip64Extra (pre ++ (es.flatMap Extra.bytes ++ post))
        (pre ++ es.flatMap Extra.bytes).length u c o := by
  induction es generalizing pre with
  | nil => rw [flatMap_nil, append_nil]
  | cons e es ih =>
    have first := applyZip64Extra_field e.id_lt e.body_lt pre (es.flatMap Extra.bytes ++ post) u c o
    rw [if_pos e.other] at first
    have later := ih (pre ++ e.bytes)
    have length : (pre ++ e.bytes).length = pre.length + (4 + e.body.length) := by
      rw [length_append, Extra.bytes, length_append, length_record]
      rfl
    rw [length] at later
    simp only [flatMap_cons, append_assoc] at later ⊢
    rw [← later]
    simpa only [Extra.bytes, append_assoc] using first

theorem applyZip64Extra_end (extra : List Byte) (u c o : ℕ) :
    applyZip64Extra extra extra.length u c o = .ok (u, c, o) := by
  rw [applyZip64Extra, if_neg (by omega)]
  rfl

theorem short_of_long {wide : Bool} (h : long wide v = []) : short 0xFFFFFFFF wide v = v := by
  unfold long at h
  unfold short
  split at h
  · cases congrArg List.length h
  · rename_i hs
    exact if_neg hs

theorem length_long_le (wide : Bool) (v : ℕ) : (long wide v).length ≤ 8 := by
  unfold long
  split
  · rw [length_le]
  · exact Nat.zero_le 8

variable {offset : ℕ}

theorem applyZip64Extra_extra (f : File) (payload : f.payload.length < 2 ^ 64)
    (place : offset < 2 ^ 64) :
    applyZip64Extra (f.extra offset) 0 (short 0xFFFFFFFF f.wideSize f.data.length)
        (short 0xFFFFFFFF f.wideCompressed f.payload.length)
        (short 0xFFFFFFFF f.wideOffset offset) =
      .ok (f.data.length, f.payload.length, offset) := by
  have start := applyZip64Extra_others f.before [] (f.zip64 offset ++ f.after.flatMap Extra.bytes)
    (short 0xFFFFFFFF f.wideSize f.data.length)
    (short 0xFFFFFFFF f.wideCompressed f.payload.length) (short 0xFFFFFFFF f.wideOffset offset)
  rw [nil_append, nil_append, length_nil] at start
  rw [File.extra, start]
  by_cases none : f.longs offset = []
  · obtain ⟨hu, hc, ho⟩ : long f.wideSize f.data.length = [] ∧
        long f.wideCompressed f.payload.length = [] ∧ long f.wideOffset offset = [] := by
      simpa only [File.longs, append_eq_nil_iff] using none
    have rest := applyZip64Extra_others f.after (f.before.flatMap Extra.bytes) []
      (short 0xFFFFFFFF f.wideSize f.data.length)
      (short 0xFFFFFFFF f.wideCompressed f.payload.length) (short 0xFFFFFFFF f.wideOffset offset)
    rw [append_nil, applyZip64Extra_end, short_of_long hu, short_of_long hc,
      short_of_long ho] at rest
    rw [File.zip64, if_pos none, nil_append, short_of_long hu, short_of_long hc, short_of_long ho]
    exact rest
  · have most : (f.longs offset).length < 2 ^ 16 := by
      have u := length_long_le f.wideSize f.data.length
      have c := length_long_le f.wideCompressed f.payload.length
      have o := length_long_le f.wideOffset offset
      rw [File.longs, length_append, length_append]
      omega
    have size := replace_long [] (long f.wideCompressed f.payload.length ++ long f.wideOffset offset)
      f.wideSize f.data_lt
    have compressed := replace_long (long f.wideSize f.data.length) (long f.wideOffset offset)
      f.wideCompressed payload
    have last := replace_long (long f.wideSize f.data.length ++
      long f.wideCompressed f.payload.length) [] f.wideOffset place
    rw [append_nil, append_assoc, length_append] at last
    rw [nil_append, length_nil, zero_add] at size
    rw [File.zip64, if_neg none, applyZip64Extra_field (by decide) most, if_neg (by simp),
      File.longs, size]
    change (do
      let (c, k) ← replace _ (long f.wideSize f.data.length).length _
      let (o, _) ← replace _ k _
      return (f.data.length, c, o)) = _
    rw [compressed]
    change (do
      let (o, _) ← replace _ (_ + _) _
      return (f.data.length, f.payload.length, o)) = _
    rw [last]
    rfl

/-- The entry of a file whose local header stands at a place. -/
def File.entry (f : File) (offset : ℕ) : ZipEntry :=
  ⟨f.name, f.method, f.flags, f.payload.length, f.data.length, offset⟩

structure Fits (p : File × ℕ) : Prop where
  payload : p.1.payload.length < 2 ^ 64
  place : p.2 < 2 ^ 64
  extra : (p.1.extra p.2).length < 2 ^ 16

theorem short_lt {n top : ℕ} (htop : top < 256 ^ n) (wide : Bool) (v : ℕ) :
    short top wide v < 256 ^ n := by
  unfold short
  split
  · exact htop
  · rename_i hs
    have small : ¬ top ≤ v := fun h => by simp [saturates, h] at hs
    omega

theorem File.method_lt (f : File) : f.method < 256 ^ 2 := by
  unfold File.method
  split <;> decide

@[simp] theorem File.width_centralFields (f : File) (offset : ℕ) :
    width (f.centralFields offset) = 46 := rfl

@[simp] theorem File.width_localFields (f : File) : width f.localFields = 30 := rfl

theorem readEntry_central {f : File} (fits : Fits (f, offset)) (pre post : List Byte) :
    readEntry (pre ++ (f.centralBytes offset ++ post)) pre.length =
      .ok (f.entry offset, (pre ++ f.centralBytes offset).length) := by
  generalize hall : pre ++ (f.centralBytes offset ++ post) = all
  have field {i w v : ℕ} (hi : (f.centralFields offset)[i]? = some (w, v)) (hw : w ≤ 8)
      (hv : v < 256 ^ w) :
      number w all (pre.length + width ((f.centralFields offset).take i)) = .ok v := by
    rw [← hall, File.centralBytes, append_assoc]
    exact number_record pre _ i hi hw hv
  have sig : le32 all pre.length = .ok centralSig :=
    field (i := 0) rfl (by decide) (by decide)
  have flags : le16 all (pre.length + 8) = .ok f.flags :=
    field (i := 2) rfl (by decide) f.flags_lt
  have method : le16 all (pre.length + 10) = .ok f.method :=
    field (i := 3) rfl (by decide) f.method_lt
  have csize : le32 all (pre.length + 20) = .ok _ :=
    field (i := 6) rfl (by decide) (short_lt (by decide) f.wideCompressed f.payload.length)
  have usize : le32 all (pre.length + 24) = .ok _ :=
    field (i := 7) rfl (by decide) (short_lt (by decide) f.wideSize f.data.length)
  have nameLen : le16 all (pre.length + 28) = .ok _ :=
    field (i := 8) rfl (by decide) f.name_lt
  have extraLen : le16 all (pre.length + 30) = .ok _ :=
    field (i := 9) rfl (by decide) fits.extra
  have commentLen : le16 all (pre.length + 32) = .ok _ :=
    field (i := 10) rfl (by decide) f.comment_lt
  have place : le32 all (pre.length + 42) = .ok _ :=
    field (i := 12) rfl (by decide) (short_lt (by decide) f.wideOffset offset)
  have name : bytes all (pre.length + 46) (encode f.name).length = .ok (encode f.name) := by
    have read := bytes_append (pre ++ record (f.centralFields offset)) (encode f.name)
      (f.extra offset ++ (f.comment ++ post))
    rw [length_append, length_record, File.width_centralFields] at read
    simpa only [← hall, File.centralBytes, append_assoc] using read
  have extra : get all (pre.length + 46 + (encode f.name).length) (f.extra offset).length =
      some (f.extra offset) := by
    have read := get_append (pre ++ (record (f.centralFields offset) ++ encode f.name))
      (f.extra offset) (f.comment ++ post)
    rw [length_append, length_append, length_record, File.width_centralFields,
      ← add_assoc] at read
    simpa only [← hall, File.centralBytes, append_assoc] using read
  have length : (pre ++ f.centralBytes offset).length = pre.length +
      (46 + (encode f.name).length + (f.extra offset).length + f.comment.length) := by
    rw [File.centralBytes]
    simp only [length_append, length_record, File.width_centralFields, add_assoc]
  simp only [readEntry, sig, flags, method, csize, usize, nameLen, extraLen, commentLen, place,
    name, extra, bind, Except.bind, pure, Except.pure, ne_eq, not_true_eq_false, if_false,
    applyZip64Extra_extra f fits.payload fits.place, fromUtf8Lossy_encode, length, File.entry]

theorem readEntries_central (ps : List (File × ℕ)) (fits : ∀ p ∈ ps, Fits p)
    (pre post : List Byte) :
    readEntries (pre ++ ((ps.flatMap fun p => p.1.centralBytes p.2) ++ post)) ps.length
        pre.length = .ok (ps.map fun p => p.1.entry p.2) := by
  induction ps generalizing pre with
  | nil => rfl
  | cons p ps ih =>
    have first := readEntry_central (fits p mem_cons_self) pre
      ((ps.flatMap fun p => p.1.centralBytes p.2) ++ post)
    have later := ih (fun q hq => fits q (mem_cons_of_mem p hq)) (pre ++ p.1.centralBytes p.2)
    rw [append_assoc] at later
    rw [flatMap_cons, append_assoc, length_cons, readEntries, first]
    change (do
      let rest ← readEntries _ ps.length (pre ++ p.1.centralBytes p.2).length
      return p.1.entry p.2 :: rest) = _
    rw [later]
    rfl

def Inverts (f : File) : Prop := ∀ z, f.deflated = some z → inflate z = .ok f.data

theorem read_local {f : File} (inverts : Inverts inflate f) (jar : Jar) (pre post : List Byte)
    (hdata : jar.data = pre ++ (f.localBytes ++ post)) :
    jar.read inflate (f.entry pre.length) = .ok f.data := by
  have field {i w v : ℕ} (hi : f.localFields[i]? = some (w, v)) (hw : w ≤ 8) (hv : v < 256 ^ w) :
      number w jar.data (pre.length + width (f.localFields.take i)) = .ok v := by
    rw [hdata, File.localBytes, append_assoc]
    exact number_record pre _ i hi hw hv
  have sig : le32 jar.data pre.length = .ok localSig := field (i := 0) rfl (by decide) (by decide)
  have nameLen : le16 jar.data (pre.length + 26) = .ok _ :=
    field (i := 8) rfl (by decide) f.name_lt
  have extraLen : le16 jar.data (pre.length + 28) = .ok _ :=
    field (i := 9) rfl (by decide) f.localExtra_lt
  have raw : bytes jar.data (pre.length + 30 + (encode f.name).length + f.localExtra.length)
      f.payload.length = .ok f.payload := by
    have read := bytes_append
      (pre ++ (record f.localFields ++ (encode f.name ++ f.localExtra))) f.payload post
    simp only [length_append, length_record, File.width_localFields, ← add_assoc] at read
    rw [hdata]
    simpa only [File.localBytes, append_assoc] using read
  simp only [Jar.read, File.entry, f.plain, sig, nameLen, extraLen, raw, bind, Except.bind,
    ne_eq, not_true_eq_false, if_false]
  cases hz : f.deflated with
  | none => simp only [File.method, File.payload, hz]; rfl
  | some z =>
    simp only [File.method, File.payload, hz]
    exact inverts z hz

theorem length_place (offset : ℕ) (fs : List File) : (place offset fs).length = fs.length := by
  induction fs generalizing offset with
  | nil => rfl
  | cons f fs ih => rw [place, length_cons, ih, length_cons]

theorem place_le {fs : List File} {p : File × ℕ} (h : p ∈ place offset fs) :
    p.2 + p.1.localBytes.length ≤ offset + (fs.flatMap File.localBytes).length := by
  induction fs generalizing offset with
  | nil => cases h
  | cons f fs ih =>
    rw [flatMap_cons, length_append]
    rcases mem_cons.mp h with rfl | h
    · dsimp only
      omega
    · have := ih h
      omega

theorem File.payload_le (f : File) : f.payload.length + 30 ≤ f.localBytes.length := by
  rw [File.localBytes]
  simp only [length_append, length_record, File.width_localFields]
  omega

theorem length_le_locals (fs : List File) : fs.length ≤ (fs.flatMap File.localBytes).length := by
  induction fs with
  | nil => exact le_rfl
  | cons f fs ih =>
    have := f.payload_le
    rw [flatMap_cons, length_append, length_cons]
    omega

structure Lists (jar : Jar) (e : ZipEntry) (f : File) : Prop where
  name : e.name = f.name
  compressed : e.compressedSize = f.payload.length
  uncompressed : e.uncompressedSize = f.data.length
  read : jar.read inflate e = .ok f.data

theorem lists_placed (jar : Jar) (fs : List File) (inverts : ∀ f ∈ fs, Inverts inflate f)
    (pre post : List Byte) (hdata : jar.data = pre ++ (fs.flatMap File.localBytes ++ post)) :
    List.Forall₂ (Lists inflate jar) ((place pre.length fs).map fun p => p.1.entry p.2) fs := by
  induction fs generalizing pre with
  | nil => exact .nil
  | cons f fs ih =>
    rw [flatMap_cons, append_assoc] at hdata
    have later := ih (fun g hg => inverts g (mem_cons_of_mem f hg)) (pre ++ f.localBytes)
      (by rw [hdata, append_assoc])
    rw [length_append] at later
    exact .cons ⟨rfl, rfl, rfl, read_local inflate (inverts f mem_cons_self) jar pre _ hdata⟩ later

theorem findLast_of_mem {p : ℕ → Bool} {lo hi j : ℕ} (hlo : lo ≤ j) (hhi : j < hi) (hp : p j) :
    ∃ i, findLast p lo hi = some i ∧ j ≤ i ∧ i < hi ∧ p i := by
  induction hi with
  | zero => omega
  | succ hi ih =>
    rw [findLast, if_neg (by omega)]
    by_cases here : p hi
    · exact ⟨hi, if_pos here, by omega, by omega, here⟩
    · have less : j < hi := by
        rcases Nat.lt_succ_iff_lt_or_eq.mp hhi with h | rfl
        · exact h
        · exact absurd hp here
      obtain ⟨i, found, hji, hi', hpi⟩ := ih less
      exact ⟨i, (if_neg here).trans found, hji, by omega, hpi⟩

namespace Archive

variable (a : Archive)

theorem locals_length : a.locals.length + (a.central.length + (a.zip64End.length +
    (22 + a.comment.length))) = a.bytes.length := by
  have eocd : (record a.eocdFields).length = 22 := length_record _
  rw [Layout.bytes]
  simp only [length_append, eocd]

theorem fits : ∀ p ∈ place 0 a.files, Fits p := by
  intro p hp
  have inside := place_le hp
  have total := a.locals_length
  have bound := a.bytes_lt
  have payload := p.1.payload_le
  unfold Layout.locals at total
  exact ⟨by omega, by omega, a.extra_lt p hp⟩

theorem files_lt : a.files.length < 2 ^ 64 := by
  have least := length_le_locals a.files
  have total := a.locals_length
  have bound := a.bytes_lt
  unfold Layout.locals at total
  omega

theorem end_field {i w : ℕ} (hi : a.eocdFields[i]? = some (w, v)) (hw : w ≤ 8) (hv : v < 256 ^ w) :
    number w a.bytes (a.eocd + width (a.eocdFields.take i)) = .ok v := by
  have read := number_record (a.locals ++ (a.central ++ a.zip64End)) a.comment i hi hw hv
  rw [length_append, length_append] at read
  simpa only [Layout.bytes, Layout.eocd, append_assoc] using read

theorem hasSig_eocd : hasSig a.bytes a.eocd = true :=
  decide_eq_true (a.end_field (i := 0) rfl (by decide) (by decide))

theorem zip64Directory_eq (h : a.isZip64 = true) : 20 ≤ a.eocd ∧
    le32 a.bytes (a.eocd - 20) = .ok zip64LocatorSig ∧
    zip64Directory a.bytes (a.eocd - 20) = .ok (a.files.length, a.locals.length) := by
  have tail : a.zip64End = record a.zip64Fields ++ record a.locatorFields := if_pos h
  have wide : (record a.zip64Fields).length = 56 := length_record _
  have narrow : (record a.locatorFields).length = 20 := length_record _
  have place : a.eocd = a.locals.length + (a.central.length + 56) + 20 := by
    rw [Layout.eocd, tail, length_append, wide, narrow]
    omega
  have total := a.locals_length
  have bound := a.bytes_lt
  have locator {i w v : ℕ} (hi : a.locatorFields[i]? = some (w, v)) (hw : w ≤ 8)
      (hv : v < 256 ^ w) :
      number w a.bytes (a.eocd - 20 + width (a.locatorFields.take i)) = .ok v := by
    have read := number_record (a.locals ++ (a.central ++ record a.zip64Fields))
      (record a.eocdFields ++ a.comment) i hi hw hv
    rw [length_append, length_append, wide] at read
    rw [place, Nat.add_sub_cancel]
    simpa only [Layout.bytes, tail, append_assoc] using read
  have record64 {i w v : ℕ} (hi : a.zip64Fields[i]? = some (w, v)) (hw : w ≤ 8)
      (hv : v < 256 ^ w) : number w a.bytes
        (a.locals.length + a.central.length + width (a.zip64Fields.take i)) = .ok v := by
    have read := number_record (a.locals ++ a.central)
      (record a.locatorFields ++ (record a.eocdFields ++ a.comment)) i hi hw hv
    rw [length_append] at read
    simpa only [Layout.bytes, tail, append_assoc] using read
  have z64 : le64 a.bytes (a.eocd - 20 + 8) = .ok (a.locals.length + a.central.length) :=
    le64_eq (locator (i := 2) rfl (by decide) (by omega))
  have sig : le32 a.bytes (a.locals.length + a.central.length) = .ok zip64EocdSig :=
    record64 (i := 0) rfl (by decide) (by decide)
  have count : le64 a.bytes (a.locals.length + a.central.length + 32) = .ok a.files.length :=
    le64_eq (record64 (i := 5) rfl (by decide) a.files_lt)
  have offset : le64 a.bytes (a.locals.length + a.central.length + 48) = .ok a.locals.length :=
    le64_eq (record64 (i := 7) rfl (by decide) (by omega))
  refine ⟨by omega, locator (i := 0) rfl (by decide) (by decide), ?_⟩
  simp only [zip64Directory, z64, sig, count, offset, bind, Except.bind, pure, Except.pure, ne_eq,
    not_true_eq_false, if_false]

theorem short_eq_top {top : ℕ} {wide : Bool} :
    short top wide v = top ↔ saturates top wide v = true := by
  unfold short
  split
  · rename_i hs
    exact iff_of_true rfl hs
  · rename_i hs
    have small : ¬ top ≤ v := fun h => by simp [saturates, h] at hs
    exact iff_of_false (by omega) hs

theorem directory_eocd : directory a.bytes a.eocd = .ok (a.files.length, a.locals.length) := by
  have total : le16 a.bytes (a.eocd + 10) = .ok _ :=
    a.end_field (i := 3) rfl (by decide) (short_lt (by decide) a.wideCount a.files.length)
  have offset : le32 a.bytes (a.eocd + 16) = .ok _ :=
    a.end_field (i := 5) rfl (by decide) (short_lt (by decide) a.wideOffset a.locals.length)
  simp only [directory, total, offset, bind, Except.bind, short_eq_top]
  by_cases wide : saturates 0xFFFF a.wideCount a.files.length = true ∨
      saturates 0xFFFFFFFF a.wideOffset a.locals.length = true
  · have isZip64 : a.isZip64 = true := by
      rcases wide with h | h <;> simp [Layout.isZip64, h]
    obtain ⟨twenty, locator, found⟩ := a.zip64Directory_eq isZip64
    rw [if_pos ⟨wide, twenty⟩, locator]
    exact (if_pos rfl).trans found
  · rw [if_neg fun h => wide h.1, short, short, if_neg fun h => wide (.inl h),
      if_neg fun h => wide (.inr h)]
    rfl

end Archive

def ReadsBack (a : Archive) : Prop :=
  ∃ jar, Jar.fromBytes a.bytes = .ok jar ∧ List.Forall₂ (Lists inflate jar) jar.entries a.files

def OwnRecordLast (a : Archive) : Prop :=
  ∀ i, a.eocd < i → i + 22 ≤ a.bytes.length → hasSig a.bytes i = false

/-- Every later signature is followed by another number of entries, and by no saturated field. -/
def OtherCounts (a : Archive) : Prop :=
  ∀ i, a.eocd < i → i + 22 ≤ a.bytes.length → hasSig a.bytes i = true →
    ∃ total offset, le16 a.bytes (i + 10) = .ok total ∧ le32 a.bytes (i + 16) = .ok offset ∧
      total ≠ 0xFFFF ∧ offset ≠ 0xFFFFFFFF ∧ total ≠ a.files.length

theorem eocd_length (a : Archive) : a.eocd + (22 + a.comment.length) = a.bytes.length := by
  have total := a.locals_length
  rw [Layout.eocd]
  omega

/-- From the archive's own record on, the search takes a signature or a later one. -/
theorem findEocd_archive (a : Archive) {j : ℕ} (behind : a.eocd ≤ j) (room : j + 22 ≤ a.bytes.length)
    (signed : hasSig a.bytes j = true) : ∃ i, findEocd a.bytes = some i ∧ j ≤ i ∧
      i + 22 ≤ a.bytes.length ∧ hasSig a.bytes i = true := by
  have comment := a.comment_lt
  have place := eocd_length a
  have above : a.bytes.length - (22 + 0xFFFF) ≤ j := by omega
  have below : j < a.bytes.length - 22 + 1 := by omega
  obtain ⟨i, found, least, most, sig⟩ := findLast_of_mem above below signed
  exact ⟨i, found, least, by omega, sig⟩

theorem readCentralDirectory_eq {data : List Byte} {i total : ℕ}
    (found : findEocd data = some i) (named : directory data i = .ok (total, offset)) :
    readCentralDirectory data = readEntries data total offset := by
  rw [readCentralDirectory, found, readFrom, named]
  rfl

theorem bind_ok {α β : Type} {x : Except JvmError α} {f : α → Except JvmError β} {b : β}
    (h : x >>= f = .ok b) : ∃ a, x = .ok a ∧ f a = .ok b := by
  cases x with
  | error e => cases h
  | ok a => exact ⟨a, rfl, h⟩

theorem length_readEntries {data : List Byte} {total pos : ℕ} {es : List ZipEntry}
    (h : readEntries data total pos = .ok es) : es.length = total := by
  induction total generalizing pos es with
  | zero =>
    cases h
    rfl
  | succ total ih =>
    rw [readEntries] at h
    obtain ⟨⟨e, next⟩, -, h⟩ := bind_ok h
    obtain ⟨rest, hrest, h⟩ := bind_ok h
    cases h
    rw [length_cons, ih hrest]

theorem readsBack_of_own (a : Archive) (inverts : ∀ f ∈ a.files, Inverts inflate f)
    (own : OwnRecordLast a) : ReadsBack inflate a := by
  have room := eocd_length a
  obtain ⟨i, found, least, most, sig⟩ := findEocd_archive a le_rfl (by omega) a.hasSig_eocd
  obtain rfl : i = a.eocd := by
    by_contra h
    rw [own i (lt_of_le_of_ne least (Ne.symm h)) most] at sig
    cases sig
  have entries := readEntries_central (place 0 a.files) a.fits a.locals
    (a.zip64End ++ (record a.eocdFields ++ a.comment))
  rw [length_place] at entries
  have read : readCentralDirectory a.bytes = .ok ((place 0 a.files).map fun p => p.1.entry p.2) := by
    exact (readCentralDirectory_eq found a.directory_eocd).trans entries
  refine ⟨⟨a.bytes, _⟩, ?_, lists_placed inflate _ a.files inverts [] _ rfl⟩
  rw [Jar.fromBytes, read]
  rfl

theorem not_readsBack_of_other (a : Archive) (other : OtherCounts a) (later : ¬ OwnRecordLast a) :
    ¬ ReadsBack inflate a := by
  rintro ⟨jar, opened, lists⟩
  unfold OwnRecordLast at later
  push Not at later
  obtain ⟨j, behind, room, signed⟩ := later
  obtain ⟨i, found, least, most, sig⟩ := findEocd_archive a behind.le room (by simpa using signed)
  obtain ⟨total, offset, ht, ho, notFull, notFar, differs⟩ :=
    other i (by omega) (by omega) sig
  obtain ⟨es, read, rfl⟩ : ∃ es, readCentralDirectory a.bytes = .ok es ∧ jar = ⟨a.bytes, es⟩ := by
    obtain ⟨es, hes, h⟩ := bind_ok opened
    cases h
    exact ⟨es, hes, rfl⟩
  have named : directory a.bytes i = .ok (total, offset) := by
    simp only [directory, ht, ho, bind, Except.bind]
    rw [if_neg fun h => h.1.elim notFull notFar]
    rfl
  have listed : readEntries a.bytes total offset = .ok es := by
    exact (readCentralDirectory_eq found named).symm.trans read
  exact differs ((length_readEntries listed).symm.trans lists.length_eq)

/-- Every archive is read back whose own end record signature is the last one. Where each later
one names another number of entries, no other archive is. -/
theorem readsBack_iff (a : Archive) (inverts : ∀ f ∈ a.files, Inverts inflate f) :
    (OwnRecordLast a → ReadsBack inflate a) ∧
      (OtherCounts a → (ReadsBack inflate a ↔ OwnRecordLast a)) := by
  refine ⟨readsBack_of_own inflate a inverts, fun other => ⟨fun h => ?_, ?_⟩⟩
  · by_contra later
    exact not_readsBack_of_other inflate a other later h
  · exact readsBack_of_own inflate a inverts

def inflateStored : List Byte → Except JvmError (List Byte)
  | 1 :: low :: high :: _ :: _ :: rest => .ok (rest.take (leNat [low, high]))
  | _ => .error (.io "invalid block type")

def deflatedFile : File where
  name := ['a']
  data := [0x61]
  deflated := some [1, 1, 0, 0xFE, 0xFF, 0x61]
  flags := 0
  version := 20
  time := 0
  crc := 0
  attributes := 0
  localExtra := []
  before := []
  after := []
  comment := []
  wideSize := false
  wideCompressed := false
  wideOffset := true
  name_lt := by decide
  data_lt := by decide
  flags_lt := by decide
  plain := by decide
  localExtra_lt := by decide
  comment_lt := by decide

/-- The file, and a comment that is an end record signature. -/
def signedArchive : Archive where
  files := [deflatedFile]
  comment := [0x50, 0x4b, 5, 6]
  wideCount := true
  wideSize := false
  wideOffset := false
  comment_lt := by decide
  extra_lt := by decide
  bytes_lt := by decide +kernel

theorem readsBack_signedArchive : (∀ f ∈ signedArchive.files, Inverts inflateStored f) ∧
    ReadsBack inflateStored signedArchive ∧ OtherCounts signedArchive ∧
      OwnRecordLast signedArchive := by
  have inverts : ∀ f ∈ signedArchive.files, Inverts inflateStored f := by
    intro f hf z hz
    obtain rfl := mem_singleton.mp hf
    cases hz
    rfl
  have length : signedArchive.bytes.length = signedArchive.eocd + 26 := by decide +kernel
  have own : OwnRecordLast signedArchive := by
    intro i behind room
    obtain ⟨k, rfl⟩ : ∃ k, i = signedArchive.eocd + (k + 1) :=
      ⟨i - signedArchive.eocd - 1, by omega⟩
    have few : k < 4 := by omega
    clear behind room
    revert k
    decide +kernel
  have counts : OtherCounts signedArchive := fun i behind room sig =>
    absurd (sig.symm.trans (own i behind room)) (by decide)
  obtain ⟨enough, needed⟩ := readsBack_iff inflateStored signedArchive inverts
  exact ⟨inverts, enough own, counts, (needed counts).mp (enough own)⟩

def commentedArchive : Archive where
  files := []
  comment := record [(4, eocdSig), (4, 0), (2, 1), (2, 1), (4, 46), (4, 0), (2, 0)]
  wideCount := false
  wideSize := false
  wideOffset := false
  comment_lt := by decide
  extra_lt := by decide
  bytes_lt := by decide

theorem commentedArchive_not_readsBack : ¬ ReadsBack inflateStored commentedArchive := by
  rintro ⟨jar, opened, -⟩
  obtain ⟨es, read, -⟩ := bind_ok opened
  have failed : (readCentralDirectory commentedArchive.bytes).toBool = false := by decide +kernel
  rw [read] at failed
  cases failed

end JarArchives
