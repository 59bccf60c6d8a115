import Reargo.PcodeModel
import Reargo.OrderedMap
import Reargo.LittleEndian

/-!
# Paged emulator memory

Reads and writes of the emulator's address spaces over 4 KiB pages. The code
touches a page only through a lookup, through the mutable reference `page_mut`
returns and through the space it creates on a first write, so the access paths
are written once over these three and used for pages held by value here and for
shared pages in `ArcPages`. The flat view reads one byte at an address; every
access path is shown to be a byte-by-byte access of that view.
-/
namespace EmulatorMemory

open PcodeModel OrderedMap LittleEndian List BitVec

def pageShift : ℕ := 12
def pageSize : ℕ := 1 <<< pageShift
def pageMask : U64 := BitVec.ofNat 64 pageSize - 1

abbrev Page := Fin pageSize → Byte

def zeroPage : Page := fun _ => 0

def pageAddr (a : U64) : U64 := a &&& ~~~pageMask
def pageOff (a : U64) : ℕ := (a &&& pageMask).toNat

theorem pageOff_eq (a : U64) : pageOff a = a.toNat % 4096 := by
  have h : pageMask.toNat = 2 ^ 12 - 1 := by decide
  rw [pageOff, toNat_and, h, Nat.and_two_pow_sub_one_eq_mod]

theorem pageOff_lt (a : U64) : pageOff a < pageSize := by
  rw [pageOff_eq]; exact Nat.mod_lt _ (by decide)

theorem pageAddr_toNat (a : U64) : (pageAddr a).toNat = a.toNat - a.toNat % 4096 := by
  have hd : (a &&& pageMask) &&& (a &&& ~~~pageMask) = 0 := by
    ext i hi; simp; tauto
  have ho : (a &&& pageMask) ||| (a &&& ~~~pageMask) = a := by
    ext i hi
    cases ha : a[i] <;> cases hm : pageMask[i] <;> simp [ha, hm]
  have hs : (a &&& pageMask) + (a &&& ~~~pageMask) = a := by
    rw [add_eq_or_of_and_eq_zero _ _ hd, ho]
  have hn := toNat_add_of_and_eq_zero hd
  rw [hs, show (a &&& pageMask).toNat = a.toNat % 4096 from pageOff_eq a] at hn
  rw [pageAddr]; omega

/-- Within a page, addresses differ by their offsets. -/
theorem pageAddr_add {a : U64} {i : ℕ} (h : pageOff a + i < pageSize) :
    pageAddr (a + BitVec.ofNat 64 i) = pageAddr a ∧
      pageOff (a + BitVec.ofNat 64 i) = pageOff a + i := by
  have ha := a.isLt
  rw [pageOff_eq, show pageSize = 4096 from rfl] at h
  have hn : (a + BitVec.ofNat 64 i).toNat = a.toNat + i := by
    rw [toNat_add, toNat_ofNat]; omega
  constructor
  · apply eq_of_toNat_eq
    rw [pageAddr_toNat, pageAddr_toNat, hn]; omega
  · rw [pageOff_eq, pageOff_eq, hn]; omega

/-- Two addresses of one page, the second at or after the first. -/
theorem sub_toNat_of_pageAddr_eq {a x : U64} (h : pageAddr x = pageAddr a) :
    (pageOff a ≤ pageOff x → (x - a).toNat = pageOff x - pageOff a) ∧
      (pageOff x < pageOff a → pageSize ≤ pageOff a + (x - a).toNat) := by
  have hp := congrArg BitVec.toNat h
  rw [pageAddr_toNat, pageAddr_toNat] at hp
  have hx := x.isLt
  have ha := a.isLt
  simp only [pageOff_eq, toNat_sub, show pageSize = 4096 from rfl]
  omega

theorem pageAddr_eq_of_sub_lt {a x : U64} (h : pageOff a + (x - a).toNat < pageSize) :
    pageAddr x = pageAddr a ∧ pageOff x = pageOff a + (x - a).toNat := by
  have hx : a + BitVec.ofNat 64 (x - a).toNat = x := by
    rw [ofNat_toNat, setWidth_eq]; ring
  have := pageAddr_add h
  rwa [hx] at this

def Page.copyFromSlice (p : Page) (off : ℕ) (bytes : List Byte) : Page := fun i =>
  if off ≤ i.val then (bytes[i.val - off]?).getD (p i) else p i

def Page.at (p : Page) (off : ℕ) : Byte := if h : off < pageSize then p ⟨off, h⟩ else 0

def fromLeBytes (buf : List Byte) : U64 := BitVec.ofNat 64 (leNat buf)

/-- How a memory is reached: `self.spaces.entry(space).or_insert_with(SpaceData::new)`,
`self.pages.get(&addr)` and a write through `self.page_mut(addr)`. -/
structure PageAccess (σ : Type) where
  getSpaceMut : σ → SpaceId → σ
  page : σ → SpaceId → U64 → Option Page
  pageMut : σ → SpaceId → U64 → (Page → Page) → σ

namespace PageAccess

section Code

variable {σ : Type} (A : PageAccess σ)

/-- `SpaceData::read`: one page when the access fits in it, else byte by byte. -/
def read (s : σ) (sp : SpaceId) (offset : U64) (size : ℕ) : U64 :=
  let size := min size 8
  let page_off := pageOff offset
  if page_off + size ≤ pageSize then
    match A.page s sp (pageAddr offset) with
    | some page =>
      fromLeBytes ((List.range size).map (fun i => page.at (page_off + i)) ++
        List.replicate (8 - size) 0#8)
    | none => 0
  else
    fromLeBytes ((List.range size).map (fun i => let addr := offset + BitVec.ofNat 64 i
        match A.page s sp (pageAddr addr) with
        | some page => page.at (pageOff addr)
        | none => 0) ++ List.replicate (8 - size) 0#8)

/-- `SpaceData::write`. -/
def write (s : σ) (sp : SpaceId) (offset : U64) (size : ℕ) (value : U64) : σ :=
  let size := min size 8
  let bytes := toLeBytes 8 value
  let page_off := pageOff offset
  if page_off + size ≤ pageSize then
    A.pageMut s sp (pageAddr offset) (fun page => page.copyFromSlice page_off (bytes.take size))
  else
    (bytes.take size).zipIdx.foldl (fun s (b, i) => let addr := offset + BitVec.ofNat 64 i
      A.pageMut s sp (pageAddr addr) (fun page => page.copyFromSlice (pageOff addr) [b])) s

/-- The loop of `SpaceData::write_bytes` with `written` bytes already copied. -/
def writeBytesFrom (sp : SpaceId) (offset : U64) (data : List Byte) (s : σ) (written : ℕ) : σ :=
  if _h : written < data.length then
    let addr := offset + BitVec.ofNat 64 written
    let page_off := pageOff addr
    let chunk := min (pageSize - page_off) (data.length - written)
    writeBytesFrom sp offset data (A.pageMut s sp (pageAddr addr) (fun page =>
        page.copyFromSlice page_off ((data.drop written).take chunk)))
      (written + chunk)
  else s
termination_by data.length - written
decreasing_by
  have := pageOff_lt (offset + BitVec.ofNat 64 written)
  omega

def writeBytes (s : σ) (sp : SpaceId) (offset : U64) (data : List Byte) : σ :=
  A.writeBytesFrom sp offset data s 0

def readVarnode (s : σ) (vn : VarnodeData) : U64 :=
  if vn.space = .const then vn.offset else A.read s vn.space vn.offset vn.size

def writeVarnode (s : σ) (vn : VarnodeData) (value : U64) : σ :=
  let mask : U64 := if vn.size ≥ 8 then BitVec.allOnes 64 else ((1 : U64) <<< (vn.size * 8)) - 1
  A.write (A.getSpaceMut s vn.space) vn.space vn.offset vn.size (value &&& mask)

/-- The upper half of a wide varnode: `vn.size.min(16) - 8` bytes from `offset + 8`. -/
def highHalf (vn : VarnodeData) : VarnodeData := ⟨vn.space, vn.offset + 8, min vn.size 16 - 8⟩

def readWide (s : σ) (vn : VarnodeData) : U128 :=
  if vn.size ≤ 8 ∨ vn.space = .const then (A.readVarnode s vn).setWidth 128
  else (A.readVarnode s ⟨vn.space, vn.offset, 8⟩).setWidth 128 |||
    (A.readVarnode s (highHalf vn)).setWidth 128 <<< 64

def writeWide (s : σ) (vn : VarnodeData) (value : U128) : σ :=
  if vn.size ≤ 8 then A.writeVarnode s vn (value.setWidth 64)
  else A.writeVarnode (A.writeVarnode s ⟨vn.space, vn.offset, 8⟩ (value.setWidth 64))
    (highHalf vn) ((value >>> 64).setWidth 64)

def readRegister (s : σ) (offset : U64) (size : ℕ) : U64 :=
  A.readVarnode s ⟨.register, offset, size⟩

def writeRegister (s : σ) (offset : U64) (size : ℕ) (value : U64) : σ :=
  A.writeVarnode s ⟨.register, offset, size⟩ value

def readMemory (s : σ) (address : U64) (size : ℕ) : U64 :=
  A.readVarnode s ⟨.ram, address, size⟩

def writeMemory (s : σ) (address : U64) (size : ℕ) (value : U64) : σ :=
  A.writeVarnode s ⟨.ram, address, size⟩ value

def loadMemoryBytes (s : σ) (address : U64) (data : List Byte) : σ :=
  A.writeBytes (A.getSpaceMut s .ram) .ram address data

/-- The byte at an address: zero where no page is mapped. -/
def byte (s : σ) (sp : SpaceId) (a : U64) : Byte :=
  match A.page s sp (pageAddr a) with
  | some page => page.at (pageOff a)
  | none => 0

end Code

/-- What the access paths rely on. `Inv` is the invariant of the representation. -/
structure Lawful {σ : Type} (A : PageAccess σ) (Inv : σ → Prop) : Prop where
  inv_getSpaceMut : ∀ {s} sp, Inv s → Inv (A.getSpaceMut s sp)
  inv_pageMut : ∀ {s} sp a f, Inv s → Inv (A.pageMut s sp a f)
  page_getSpaceMut : ∀ {s} sp sp' a, Inv s → A.page (A.getSpaceMut s sp) sp' a = A.page s sp' a
  page_pageMut : ∀ {s} sp a f sp' a', Inv s → A.page (A.pageMut s sp a f) sp' a' =
      if sp' = sp ∧ a' = a then some (f ((A.page s sp a).getD zeroPage)) else A.page s sp' a'

def stored (m : SpaceId → U64 → Byte) (sp : SpaceId) (offset : U64) (bytes : List Byte) :
    SpaceId → U64 → Byte :=
  Function.update m sp (storeBytes (m sp) offset bytes)

theorem stored_append (m : SpaceId → U64 → Byte) (sp : SpaceId) (a : U64) (bs cs : List Byte) :
    stored m sp a (bs ++ cs) = stored (stored m sp a bs) sp (a + BitVec.ofNat 64 bs.length) cs := by
  simp [stored, storeBytes_append]

@[simp] theorem stored_nil (m : SpaceId → U64 → Byte) (sp : SpaceId) (a : U64) :
    stored m sp a [] = m := by
  simp [stored, storeBytes]

variable {σ : Type} {A : PageAccess σ} {Inv : σ → Prop} {s : σ}

theorem at_copyFromSlice {p : Page} {off i : ℕ} {bytes : List Byte} (hi : i < pageSize) :
    (p.copyFromSlice off bytes).at i =
      if off ≤ i then (bytes[i - off]?).getD (p.at i) else p.at i := by
  simp [Page.at, Page.copyFromSlice, hi]

section

variable (L : A.Lawful Inv)

include L

theorem Lawful.byte_copy (hs : Inv s) (sp : SpaceId) (a : U64)
    (bytes : List Byte) (h : pageOff a + bytes.length ≤ pageSize) :
    A.byte (A.pageMut s sp (pageAddr a) (fun p => p.copyFromSlice (pageOff a) bytes)) =
      stored (A.byte s) sp a bytes := by
  have hlen : bytes.length ≤ 2 ^ 64 := by
    have : pageSize ≤ 2 ^ 64 := by decide
    omega
  funext sp' x
  by_cases hsp : sp' = sp
  · subst hsp
    rw [stored, Function.update_self, storeBytes_apply _ _ _ _ hlen]
    simp only [byte, L.page_pageMut _ _ _ _ _ hs, true_and]
    by_cases hp : pageAddr x = pageAddr a
    · obtain ⟨hge, hlt⟩ := sub_toNat_of_pageAddr_eq hp
      have hold : ((A.page s sp' (pageAddr a)).getD zeroPage).at (pageOff x) = A.byte s sp' x := by
        simp only [byte, hp]
        cases A.page s sp' (pageAddr a) <;> simp [zeroPage, Page.at]
      rw [if_pos hp]
      simp only [at_copyFromSlice (pageOff_lt x), hold]
      by_cases ho : pageOff a ≤ pageOff x
      · rw [if_pos ho, hge ho]
        rfl
      · have := hlt (not_le.mp ho)
        rw [if_neg ho, List.getElem?_eq_none (by omega)]
        rfl
    · rw [if_neg hp, List.getElem?_eq_none]
      · rfl
      · by_contra hc
        exact hp (pageAddr_eq_of_sub_lt (by omega)).1
  · rw [stored, Function.update_of_ne hsp]
    simp only [byte, L.page_pageMut _ _ _ _ _ hs, hsp, false_and, if_false]

theorem Lawful.byte_getSpaceMut (hs : Inv s) (sp : SpaceId) :
    A.byte (A.getSpaceMut s sp) = A.byte s := by
  funext sp' a
  simp only [byte, L.page_getSpaceMut _ _ _ hs]

theorem Lawful.byte_bytewise (sp : SpaceId) (a : U64) (bytes : List Byte)
    (k : ℕ) (hs : Inv s) : let s' := (bytes.zipIdx k).foldl (fun s (b, i) =>
      A.pageMut s sp (pageAddr (a + BitVec.ofNat 64 i))
        (fun page => page.copyFromSlice (pageOff (a + BitVec.ofNat 64 i)) [b])) s
    Inv s' ∧ A.byte s' = stored (A.byte s) sp (a + BitVec.ofNat 64 k) bytes := by
  induction bytes generalizing k s with
  | nil => simp [hs]
  | cons b bs ih =>
    have hone := pageOff_lt (a + BitVec.ofNat 64 k)
    obtain ⟨hi, hb⟩ := ih (k + 1) (L.inv_pageMut sp (pageAddr (a + BitVec.ofNat 64 k))
      (fun page => page.copyFromSlice (pageOff (a + BitVec.ofNat 64 k)) [b]) hs)
    refine ⟨by simpa using hi, ?_⟩
    simp only [zipIdx_cons, foldl_cons]
    rw [hb, L.byte_copy hs sp _ [b] (by simpa using hone)]
    have := stored_append (A.byte s) sp (a + BitVec.ofNat 64 k) [b] bs
    rw [singleton_append] at this
    rw [this, ofNat_add, add_assoc]
    rfl

theorem Lawful.write_spec (hs : Inv s) (sp : SpaceId) (a : U64) (size : ℕ) (v : U64) :
    Inv (A.write s sp a size v) ∧
      A.byte (A.write s sp a size v) = stored (A.byte s) sp a (toLeBytes (min size 8) v) := by
  have htake : (toLeBytes 8 v).take (min size 8) = toLeBytes (min size 8) v :=
    take_toLeBytes (min_le_right _ _) v
  unfold write
  simp only [htake]
  split
  · next hfit =>
    exact ⟨L.inv_pageMut _ _ _ hs, L.byte_copy hs sp a _ (by simpa using hfit)⟩
  · simpa using L.byte_bytewise sp a (toLeBytes (min size 8) v) 0 hs

theorem Lawful.writeBytesFrom_spec (sp : SpaceId) (a : U64)
    (data : List Byte) (hs : Inv s) (written : ℕ) :
    Inv (A.writeBytesFrom sp a data s written) ∧ A.byte (A.writeBytesFrom sp a data s written) =
        stored (A.byte s) sp (a + BitVec.ofNat 64 written) (data.drop written) := by
  induction s, written using writeBytesFrom.induct (A := A) sp a data with
  | case1 s written h addr page_off chunk ih =>
    have hoff := pageOff_lt addr
    have hlen : ((data.drop written).take chunk).length = chunk := by
      simp only [length_take, length_drop]
      exact min_eq_left (min_le_right _ _)
    have hfit : page_off + chunk ≤ pageSize := by omega
    obtain ⟨hi, hb⟩ := ih (L.inv_pageMut _ _ _ hs)
    rw [writeBytesFrom, dif_pos h]
    refine ⟨hi, ?_⟩
    rw [hb, L.byte_copy hs sp addr _ (by rw [hlen]; exact hfit)]
    have happ := stored_append (A.byte s) sp addr ((data.drop written).take chunk)
      (data.drop (written + chunk))
    rw [hlen, ← drop_drop, take_append_drop] at happ
    rw [← drop_drop, happ, ofNat_add, ← add_assoc]
  | case2 s written h =>
    rw [writeBytesFrom, dif_neg h, drop_eq_nil_of_le (by omega), stored_nil]
    exact ⟨hs, rfl⟩

theorem Lawful.writeBytes_spec (hs : Inv s) (sp : SpaceId) (a : U64) (data : List Byte) :
    Inv (A.writeBytes s sp a data) ∧
      A.byte (A.writeBytes s sp a data) = stored (A.byte s) sp a data := by
  simpa [writeBytes] using L.writeBytesFrom_spec sp a data hs 0

end

theorem read_eq (s : σ) (sp : SpaceId) (a : U64) (size : ℕ) :
    A.read s sp a size = fromLeBytes (loadBytes (A.byte s sp) a (min size 8)) := by
  have hpad : ∀ bs : List Byte, ∀ n, fromLeBytes (bs ++ List.replicate n 0#8) = fromLeBytes bs := by
    intro bs n
    simp [fromLeBytes, leNat_append]
  unfold read
  simp only [hpad]
  split
  · next hfit =>
    have hin : ∀ i ∈ range (min size 8), A.byte s sp (a + BitVec.ofNat 64 i) =
        match A.page s sp (pageAddr a) with
        | some page => page.at (pageOff a + i)
        | none => 0 := by
      intro i hi
      obtain ⟨hp, ho⟩ := pageAddr_add (a := a) (i := i) (by have := mem_range.mp hi; omega)
      simp only [byte, hp, ho]
    unfold loadBytes
    rw [map_congr_left hin]
    cases A.page s sp (pageAddr a) with
    | none =>
      have hz : (List.range (min size 8)).map (fun _ => (0 : Byte)) =
          List.replicate (min size 8) 0#8 := by simp
      simp only [hz, fromLeBytes, leNat_replicate_zero]
      rfl
    | some page => rfl
  · rfl

theorem Lawful.writeVarnode_spec (L : A.Lawful Inv) (hs : Inv s) (vn : VarnodeData) (v : U64) :
    Inv (A.writeVarnode s vn v) ∧ A.byte (A.writeVarnode s vn v) =
      stored (A.byte s) vn.space vn.offset (toLeBytes (min vn.size 8) v) := by
  have hi := L.inv_getSpaceMut vn.space hs
  obtain ⟨hw, hb⟩ := L.write_spec hi vn.space vn.offset vn.size
    (v &&& if vn.size ≥ 8 then BitVec.allOnes 64 else ((1 : U64) <<< (vn.size * 8)) - 1)
  refine ⟨hw, ?_⟩
  unfold writeVarnode
  rw [hb, L.byte_getSpaceMut hs]
  congr 1
  -- the mask keeps exactly the bytes that are written
  split
  · rw [and_allOnes]
  · next hsz =>
    have hsz : vn.size < 8 := by omega
    apply toLeBytes_congr
    have hm : ((1 : U64) <<< (vn.size * 8) - 1).toNat = 2 ^ (vn.size * 8) - 1 := by
      interval_cases vn.size <;> decide
    rw [toNat_and, hm, Nat.and_two_pow_sub_one_eq_mod, min_eq_left (by omega),
      mul_comm, pow_mul, show (2 : ℕ) ^ 8 = 256 from rfl, Nat.mod_mod]

theorem Lawful.writeWide_spec (L : A.Lawful Inv) (hs : Inv s) (vn : VarnodeData) (v : U128) :
    Inv (A.writeWide s vn v) ∧ A.byte (A.writeWide s vn v) =
      stored (A.byte s) vn.space vn.offset (toLeBytes (min vn.size 16) v) := by
  unfold writeWide
  split
  · next hsz =>
    obtain ⟨hw, hb⟩ := L.writeVarnode_spec hs vn (v.setWidth 64)
    refine ⟨hw, ?_⟩
    rw [hb, min_eq_left hsz, min_eq_left (by omega)]
    congr 1
    apply toLeBytes_congr
    have hd : 256 ^ vn.size ∣ 2 ^ 64 := by
      rw [show (256 : ℕ) = 2 ^ 8 from rfl, ← pow_mul]
      exact pow_dvd_pow 2 (by omega)
    rw [toNat_setWidth, Nat.mod_mod_of_dvd _ hd]
  · next hsz =>
    obtain ⟨hw, hb⟩ := L.writeVarnode_spec hs ⟨vn.space, vn.offset, 8⟩ (v.setWidth 64)
    obtain ⟨hw', hb'⟩ := L.writeVarnode_spec hw (highHalf vn) ((v >>> 64).setWidth 64)
    refine ⟨hw', ?_⟩
    have hhi : min (min vn.size 16 - 8) 8 = min vn.size 16 - 8 := by omega
    have hlow : toLeBytes 8 (v.setWidth 64) = toLeBytes 8 v :=
      toLeBytes_congr (by rw [toNat_setWidth]; simp)
    have hhigh : toLeBytes (min vn.size 16 - 8) ((v >>> 64).setWidth 64) =
        toLeBytes (min vn.size 16 - 8) (v >>> 64) := by
      apply toLeBytes_congr
      have hlt : (v >>> 64).toNat < 2 ^ 64 := by
        have := v.isLt
        rw [toNat_ushiftRight, Nat.shiftRight_eq_div_pow]
        omega
      rw [toNat_setWidth, Nat.mod_eq_of_lt hlt]
    rw [hb', hb]
    simp only [highHalf, hhi, min_self, hlow, hhigh]
    rw [show min vn.size 16 = 8 + (min vn.size 16 - 8) by omega, toLeBytes_add, stored_append,
      length_toLeBytes, Nat.add_sub_cancel_left]
    rfl

theorem readVarnode_eq {vn : VarnodeData} (hc : vn.space ≠ .const) (s : σ) :
    A.readVarnode s vn = fromLeBytes (loadBytes (A.byte s vn.space) vn.offset (min vn.size 8)) := by
  rw [readVarnode, if_neg hc, read_eq]

/-- Two words side by side make the double word of their values. -/
theorem halves_eq {lo hi : ℕ} (hlo : lo < 256 ^ 8) (hhi : hi < 2 ^ 64) :
    (BitVec.ofNat 64 lo).setWidth 128 ||| (BitVec.ofNat 64 hi).setWidth 128 <<< 64 =
      BitVec.ofNat 128 (lo + 256 ^ 8 * hi) := by
  rw [show (256 : ℕ) ^ 8 = 2 ^ 64 from rfl] at *
  apply eq_of_toNat_eq
  simp only [toNat_or, toNat_setWidth, toNat_ofNat, toNat_shiftLeft]
  rw [Nat.mod_eq_of_lt (a := lo) hlo, Nat.mod_eq_of_lt (a := hi) hhi,
    Nat.mod_eq_of_lt (a := lo) (by omega), Nat.mod_eq_of_lt (a := hi) (by omega),
    Nat.shiftLeft_eq, Nat.mod_eq_of_lt (a := hi * 2 ^ 64) (by omega),
    Nat.mod_eq_of_lt (by omega), mul_comm hi, add_comm,
    Nat.two_pow_add_eq_or_of_lt hlo, Nat.or_comm]

theorem readWide_eq {vn : VarnodeData} (hc : vn.space ≠ .const) (s : σ) : A.readWide s vn =
      BitVec.ofNat 128 (leNat (loadBytes (A.byte s vn.space) vn.offset (min vn.size 16))) := by
  unfold readWide
  split
  · next h =>
    have hsz : vn.size ≤ 8 := h.resolve_right hc
    have hlt := leNat_lt (loadBytes (A.byte s vn.space) vn.offset vn.size)
    have hle : 256 ^ vn.size ≤ 2 ^ 64 := by
      rw [show (256 : ℕ) = 2 ^ 8 from rfl, ← pow_mul]
      exact pow_le_pow_right₀ (by decide) (by omega)
    rw [length_loadBytes] at hlt
    rw [readVarnode_eq hc, min_eq_left hsz, min_eq_left (by omega), fromLeBytes]
    apply eq_of_toNat_eq
    simp only [toNat_setWidth, toNat_ofNat]
    omega
  · next h =>
    have hhi : min (min vn.size 16 - 8) 8 = min vn.size 16 - 8 := by omega
    have hlo := leNat_lt (loadBytes (A.byte s vn.space) vn.offset 8)
    have hup := leNat_lt (loadBytes (A.byte s vn.space) (vn.offset + 8) (min vn.size 16 - 8))
    have hle : 256 ^ (min vn.size 16 - 8) ≤ 2 ^ 64 := by
      rw [show (256 : ℕ) = 2 ^ 8 from rfl, ← pow_mul]
      exact pow_le_pow_right₀ (by decide) (by omega)
    rw [length_loadBytes] at hlo hup
    have hclo : (⟨vn.space, vn.offset, 8⟩ : VarnodeData).space ≠ .const := hc
    have hchi : (highHalf vn).space ≠ .const := hc
    rw [readVarnode_eq hclo, readVarnode_eq hchi]
    conv_rhs => rw [show min vn.size 16 = 8 + (min vn.size 16 - 8) by omega, loadBytes_add,
      leNat_append, length_loadBytes]
    simp only [highHalf, hhi, min_self, fromLeBytes]
    exact halves_eq hlo (lt_of_lt_of_le hup hle)

end PageAccess

/-- A space whose pages are held by value: what a state is when nothing is shared. -/
structure SpaceData where
  pages : OrdMap U64 Page

def SpaceData.new : SpaceData := ⟨OrdMap.empty⟩

structure EmulatorState where
  spaces : OrdMap ℕ SpaceData

namespace EmulatorState

def new : EmulatorState := ⟨OrdMap.empty⟩

def space (s : EmulatorState) (sp : SpaceId) : SpaceData := (s.spaces.get? sp).getD SpaceData.new

def access : PageAccess EmulatorState where
  getSpaceMut s sp := ⟨s.spaces.insert sp (s.space sp)⟩
  page s sp a := (s.spaces.get? sp).bind fun d => d.pages.get? a
  pageMut s sp a f :=
    ⟨s.spaces.insert sp
      ⟨(s.space sp).pages.insert a (f (((s.space sp).pages.get? a).getD zeroPage))⟩⟩

theorem access_lawful : access.Lawful (fun _ => True) where
  inv_getSpaceMut _ _ := trivial
  inv_pageMut _ _ _ _ := trivial
  page_getSpaceMut {s} sp sp' a _ := by
    simp only [access, OrdMap.get?_insert, space]
    by_cases h : sp' = sp
    · subst h
      cases s.spaces.get? sp' <;> simp [SpaceData.new]
    · simp [h]
  page_pageMut {s} sp a f sp' a' _ := by
    simp only [access, OrdMap.get?_insert, space]
    by_cases h : sp' = sp
    · subst h
      by_cases ha : a' = a
      · subst ha
        cases s.spaces.get? sp' <;> simp [SpaceData.new]
      · cases s.spaces.get? sp' <;> simp [SpaceData.new, ha, OrdMap.get?_insert]
    · simp [h]

/-- The flat byte map a state stands for. -/
def bytes (s : EmulatorState) : SpaceId → U64 → Byte := access.byte s

def readVarnode (s : EmulatorState) (vn : VarnodeData) : U64 := access.readVarnode s vn
def writeVarnode (s : EmulatorState) (vn : VarnodeData) (value : U64) : EmulatorState :=
  access.writeVarnode s vn value

def readWide (s : EmulatorState) (vn : VarnodeData) : U128 := access.readWide s vn
def writeWide (s : EmulatorState) (vn : VarnodeData) (value : U128) : EmulatorState :=
  access.writeWide s vn value

def readMemory (s : EmulatorState) (address : U64) (size : ℕ) : U64 :=
  access.readMemory s address size

def writeMemory (s : EmulatorState) (address : U64) (size : ℕ) (value : U64) : EmulatorState :=
  access.writeMemory s address size value

theorem bytes_writeVarnode (s : EmulatorState) (vn : VarnodeData) (v : U64) :
    (s.writeVarnode vn v).bytes =
      PageAccess.stored s.bytes vn.space vn.offset (toLeBytes (min vn.size 8) v) :=
  (access_lawful.writeVarnode_spec trivial vn v).2

theorem bytes_writeWide (s : EmulatorState) (vn : VarnodeData) (v : U128) :
    (s.writeWide vn v).bytes =
      PageAccess.stored s.bytes vn.space vn.offset (toLeBytes (min vn.size 16) v) :=
  (access_lawful.writeWide_spec trivial vn v).2

end EmulatorState

end EmulatorMemory
