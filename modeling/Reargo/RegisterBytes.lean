import Reargo.ByteConsts
import Reargo.OrderedMap

/-!
# Registers known byte by byte

What a tracker knows about the registers, eight bytes at each multiple of eight. One
form keeps it in fixed arrays and a map, the other in a list of the registers it knows
something about; both do to the knowledge what the operations on it say. Offsets are
natural numbers: the sums the code makes of them stay below the end of the space.
-/
namespace RegisterBytes

open PcodeModel OrderedMap ByteConsts Function
open List (map_cons mem_append mem_cons mem_cons_of_mem mem_cons_self mem_map_of_mem not_mem_nil
  pairwise_cons)
open ByteConst (byte_intersect byte_merge byte_trunc byte_unknown ext_byte isUnknown_iff unknown)
open Option hiding or or_assoc

/-- The register and the byte in it of an access that lies in one register; position and
size are added as 32-bit words. -/
def split (offset size : ℕ) : Option (ℕ × ℕ) :=
  let pos := offset % 8
  if size > 0 ∧ (pos + size) % 2 ^ 32 ≤ 8 then some (offset - pos, pos) else none

/-- The end of the bytes an access forgets: at least one, none past the last offset. -/
def endOf (offset size : ℕ) : ℕ := min (offset + max size 1) (2 ^ 64 - 1)

/-- What is known of the eight bytes at each base. -/
abbrev Knowledge := ℕ → ByteConst

namespace Knowledge

/-- The bytes of one register between two offsets forgotten. -/
def forgetIn (offset stop base : ℕ) (b : ByteConst) : ByteConst :=
  b.merge (max offset base - base) (min stop (base + 8) - max offset base) .unknown

def forget (K : Knowledge) (offset size : ℕ) : Knowledge := fun base =>
  if offset - offset % 8 ≤ base ∧ base < endOf offset size then
    forgetIn offset (endOf offset size) base (K base)
  else K base

def write (K : Knowledge) (offset size : ℕ) (v : ByteConst) : Knowledge :=
  match split offset size with
  | some (base, pos) => Function.update K base ((K base).merge pos size v)
  | none => K.forget offset size

end Knowledge

def gprEnd : ℕ := 0xc0
def flagsBase : ℕ := 0x200
def flagsEnd : ℕ := 0x220

structure RegFile where
  gpr : Fin 24 → ByteConst
  flags : Fin 4 → ByteConst
  other : OrdMap ℕ ByteConst

namespace RegFile

def new : RegFile := ⟨fun _ => .unknown, fun _ => .unknown, OrdMap.empty⟩

def slot (f : RegFile) (base : ℕ) : ByteConst :=
  if h : base < gprEnd then f.gpr ⟨base / 8, by unfold gprEnd at h; omega⟩
  else if h : flagsBase ≤ base ∧ base < flagsEnd then
    f.flags ⟨(base - flagsBase) / 8, by unfold flagsBase flagsEnd at h; unfold flagsBase; omega⟩
  else (f.other.get? base).getD .unknown

def setSlot (f : RegFile) (base : ℕ) (v : ByteConst) : RegFile :=
  if h : base < gprEnd then
    { f with gpr := Function.update f.gpr ⟨base / 8, by unfold gprEnd at h; omega⟩ v }
  else if h : flagsBase ≤ base ∧ base < flagsEnd then
    { f with
      flags := Function.update f.flags
        ⟨(base - flagsBase) / 8, by unfold flagsBase flagsEnd at h; unfold flagsBase; omega⟩ v }
  else if v.isUnknown then { f with other := f.other.filter fun b _ => b ≠ base }
  else { f with other := f.other.insert base v }

def read (f : RegFile) (offset size : ℕ) : ByteConst :=
  match split offset size with
  | some (base, pos) => (f.slot base).bytesAt pos size
  | none => .unknown

def forgetAt (offset stop : ℕ) (f : RegFile) (base : ℕ) : RegFile :=
  let lo := max offset base
  let hi := min stop (base + 8)
  f.setSlot base ((f.slot base).merge (lo - base) (hi - lo) .unknown)

/-- The registers from the one of the offset to the end. -/
def basesOf (offset stop : ℕ) : List ℕ :=
  let lo := offset - offset % 8
  (List.range ((stop - lo + 7) / 8)).map fun i => lo + 8 * i

def forget (f : RegFile) (offset size : ℕ) : RegFile :=
  let stop := endOf offset size
  (basesOf offset stop).foldl (forgetAt offset stop) f

def write (f : RegFile) (offset size : ℕ) (v : ByteConst) : RegFile :=
  match split offset size with
  | some (base, pos) => f.setSlot base ((f.slot base).merge pos size v)
  | none => f.forget offset size

def set64 (f : RegFile) (base : ℕ) (v : U64) : RegFile := f.write base 8 (.konst v 8)

def clear (_ : RegFile) : RegFile := new

def fullValues (f : RegFile) : List (ℕ × U64) :=
  let gpr := (List.finRange 24).map fun i => (i.val * 8, f.gpr i)
  let flags := (List.finRange 4).map fun i => (flagsBase + i.val * 8, f.flags i)
  (gpr ++ flags ++ f.other.entries).filterMap fun e => (e.2.get 8).map fun v => (e.1, v)

/-- A register of the map, when both know something of it. -/
def intersectAt (g : RegFile) (out : OrdMap ℕ ByteConst) (e : ℕ × ByteConst) : OrdMap ℕ ByteConst :=
  match g.other.get? e.1 with
  | some o =>
    let j := e.2.intersect o
    if j.isUnknown then out else out.insert e.1 j
  | none => out

def intersectOther (f g : RegFile) : OrdMap ℕ ByteConst :=
  f.other.entries.foldl g.intersectAt OrdMap.empty

def intersect (f g : RegFile) : RegFile where
  gpr i := (f.gpr i).intersect (g.gpr i)
  flags i := (f.flags i).intersect (g.flags i)
  other := f.intersectOther g

end RegFile

structure RegList where
  regs : List (ℕ × ByteConst)

namespace RegList

def new : RegList := ⟨[]⟩

def slot (l : RegList) (base : ℕ) : ByteConst :=
  match l.regs.find? fun e => base ≤ e.1 with
  | some e => if e.1 = base then e.2 else .unknown
  | none => .unknown

def read (l : RegList) (offset size : ℕ) : ByteConst :=
  match split offset size with
  | some (base, pos) => (l.slot base).bytesAt pos size
  | none => .unknown

def forget (l : RegList) (offset size : ℕ) : RegList :=
  let stop := endOf offset size
  let lo := offset - offset % 8
  ⟨(l.regs.map fun e => if lo ≤ e.1 ∧ e.1 < stop then
        let start := max offset e.1
        let last := min stop (e.1 + 8)
        (e.1, e.2.merge (start - e.1) (last - start) .unknown)
      else e).filter fun e => !e.2.isUnknown⟩

/-- The bytes merged into the slot found, which is made, changed or removed. -/
def writeSlot (l : RegList) (base pos size : ℕ) (v : ByteConst) : RegList :=
  let k := l.regs.findIdx fun e => base ≤ e.1
  let insert : List (ℕ × ByteConst) :=
    if (v.trunc size).isUnknown then l.regs
    else l.regs.take k ++ (base, unknown.merge pos size v) :: l.regs.drop k
  match l.regs[k]? with
  | some e =>
    if e.1 = base then
      let next := e.2.merge pos size v
      if next.isUnknown then ⟨l.regs.eraseIdx k⟩ else ⟨l.regs.set k (e.1, next)⟩
    else ⟨insert⟩
  | none => ⟨insert⟩

def write (l : RegList) (offset size : ℕ) (v : ByteConst) : RegList :=
  match split offset size with
  | some (base, pos) => l.writeSlot base pos size v
  | none => l.forget offset size

def set64 (l : RegList) (base : ℕ) (v : U64) : RegList := l.write base 8 (.konst v 8)

def clear (_ : RegList) : RegList := new

def fullValues (l : RegList) : List (ℕ × U64) :=
  l.regs.filterMap fun e => (e.2.get 8).map fun v => (e.1, v)

/-- Both lists walked together. -/
def intersectRegs : List (ℕ × ByteConst) → List (ℕ × ByteConst) → List (ℕ × ByteConst)
  | [], _ => []
  | (base, a) :: rest, other =>
    match other.dropWhile fun e => e.1 < base with
    | [] => []
    | (ob, b) :: other' =>
      let j := a.intersect b
      if ob = base ∧ j.isUnknown = false then (base, j) :: intersectRegs rest ((ob, b) :: other')
      else intersectRegs rest ((ob, b) :: other')

def intersect (l m : RegList) : RegList := ⟨intersectRegs l.regs m.regs⟩

end RegList

variable {b base : ℕ} {v : ByteConst}

section File

variable {f g : RegFile} {e : ℕ × ByteConst}

theorem dvd_of_split {offset size pos : ℕ} (h : split offset size = some (base, pos)) :
    8 ∣ base ∧ pos < 8 := by
  unfold split at h
  simp only at h
  split at h
  · obtain ⟨rfl, rfl⟩ := Prod.mk.inj (some.inj h)
    omega
  · cases h

theorem RegFile.slot_setSlot (hbase : 8 ∣ base) (hb : 8 ∣ b) (v : ByteConst) :
    (f.setSlot base v).slot b = if b = base then v else f.slot b := by
  unfold setSlot slot
  by_cases hg : base < gprEnd
  · simp only [hg, dif_pos]
    by_cases hbg : b < gprEnd
    · simp only [hbg, dif_pos]
      by_cases heq : b = base
      · subst heq
        rw [if_pos rfl, update_self]
      · rw [if_neg heq, update_of_ne]
        intro hc
        have := Fin.mk.inj hc
        omega
    · have heq : b ≠ base := fun h => hbg (h ▸ hg)
      simp only [hbg, dif_neg, not_false_eq_true, if_neg heq]
  · simp only [hg, dif_neg, not_false_eq_true]
    by_cases hf : flagsBase ≤ base ∧ base < flagsEnd
    · simp only [hf, dif_pos, and_self]
      by_cases hbg : b < gprEnd
      · have heq : b ≠ base := fun h => hg (h ▸ hbg)
        simp only [hbg, dif_pos, if_neg heq]
      · simp only [hbg, dif_neg, not_false_eq_true]
        by_cases hbf : flagsBase ≤ b ∧ b < flagsEnd
        · simp only [hbf, dif_pos, and_self]
          by_cases heq : b = base
          · subst heq
            rw [if_pos rfl, update_self]
          · rw [if_neg heq, update_of_ne]
            intro hc
            have hdiv := Fin.mk.inj hc
            unfold flagsBase at hf hbf hdiv
            omega
        · have heq : b ≠ base := fun h => hbf (h ▸ hf)
          simp only [hbf, dif_neg, not_false_eq_true, if_neg heq]
    · by_cases hbg : b < gprEnd
      · have heq : b ≠ base := fun h => hg (h ▸ hbg)
        cases v.isUnknown <;>
          simp only [hf, hbg, dif_pos, dif_neg, not_false_eq_true, if_neg heq, if_true,
            Bool.false_eq_true, if_false]
      · by_cases hbf : flagsBase ≤ b ∧ b < flagsEnd
        · have heq : b ≠ base := fun h => hf (h ▸ hbf)
          cases v.isUnknown <;>
            simp only [hf, hbg, hbf, dif_pos, dif_neg, not_false_eq_true, and_self, if_neg heq,
              if_true, Bool.false_eq_true, if_false]
        · cases hv : v.isUnknown with
          | true =>
            simp only [hf, hbg, hbf, dif_neg, not_false_eq_true, if_true]
            rw [isUnknown_iff] at hv
            rw [OrdMap.get?_filter]
            by_cases heq : b = base
            · subst heq
              rw [if_pos rfl, hv]
              cases f.other.get? b <;> simp
            · rw [if_neg heq]
              cases f.other.get? b <;> simp [heq, Option.filter]
          | false =>
            simp only [hf, hbg, hbf, dif_neg, not_false_eq_true, Bool.false_eq_true, if_false]
            rw [OrdMap.get?_insert]
            by_cases heq : b = base
            · rw [if_pos heq, if_pos heq, getD_some]
            · rw [if_neg heq, if_neg heq]

theorem mem_basesOf {offset stop : ℕ} : b ∈ RegFile.basesOf offset stop ↔
    8 ∣ b ∧ offset - offset % 8 ≤ b ∧ b < stop := by
  unfold RegFile.basesOf
  simp only [List.mem_map, List.mem_range]
  constructor
  · rintro ⟨i, hi, rfl⟩
    omega
  · rintro ⟨hb, hlo, hhi⟩
    exact ⟨(b - (offset - offset % 8)) / 8, by omega, by omega⟩

theorem nodup_basesOf (offset stop : ℕ) : (RegFile.basesOf offset stop).Nodup := by
  unfold RegFile.basesOf
  refine List.Nodup.map ?_ List.nodup_range
  intro i j hij
  simp only at hij
  omega

theorem RegFile.slot_foldl_forgetAt (offset stop : ℕ) (bases : List ℕ) (hnodup : bases.Nodup)
    (hdvd : ∀ b ∈ bases, 8 ∣ b) (f : RegFile) (hb : 8 ∣ b) :
    (bases.foldl (forgetAt offset stop) f).slot b =
      if b ∈ bases then Knowledge.forgetIn offset stop b (f.slot b) else f.slot b := by
  induction bases generalizing f with
  | nil => rfl
  | cons base bases ih =>
    obtain ⟨hnew, hnodup⟩ := List.nodup_cons.mp hnodup
    have hbase := hdvd base mem_cons_self
    rw [List.foldl_cons, ih hnodup fun x hx => hdvd x (mem_cons_of_mem _ hx)]
    have hslot : (forgetAt offset stop f base).slot b =
        if b = base then Knowledge.forgetIn offset stop base (f.slot base) else f.slot b :=
      slot_setSlot hbase hb _
    rw [hslot]
    by_cases heq : b = base
    · subst heq
      simp [hnew]
    · simp [heq]

theorem RegFile.slot_forget (f : RegFile) (offset size : ℕ) (hb : 8 ∣ b) :
    (f.forget offset size).slot b = Knowledge.forget f.slot offset size b := by
  unfold forget
  rw [slot_foldl_forgetAt _ _ _ (nodup_basesOf _ _) (fun x hx => (mem_basesOf.mp hx).1) f hb]
  unfold Knowledge.forget
  simp only [mem_basesOf, hb, true_and]

theorem RegFile.slot_write (f : RegFile) (offset size : ℕ) (v : ByteConst) (hb : 8 ∣ b) :
    (f.write offset size v).slot b = Knowledge.write f.slot offset size v b := by
  unfold write Knowledge.write
  cases hsplit : split offset size with
  | none => exact slot_forget f offset size hb
  | some bp =>
    obtain ⟨hbase, -⟩ := dvd_of_split hsplit
    simp only
    rw [slot_setSlot hbase hb, update_apply]

/-- The map holds other registers only. -/
structure RegFile.Apart (f : RegFile) : Prop where
  dvd : ∀ e ∈ f.other.entries, 8 ∣ e.1
  gpr : ∀ e ∈ f.other.entries, ¬ e.1 < gprEnd
  flags : ∀ e ∈ f.other.entries, ¬ (flagsBase ≤ e.1 ∧ e.1 < flagsEnd)

theorem RegFile.apart_new : RegFile.new.Apart :=
  ⟨fun _ he => absurd he not_mem_nil, fun _ he => absurd he not_mem_nil,
    fun _ he => absurd he not_mem_nil⟩

theorem mem_entries_insert {m : OrdMap ℕ ByteConst} {k : ℕ}
    (h : e ∈ (m.insert k v).entries) : e.1 = k ∨ e ∈ m.entries := by
  obtain ⟨b, w⟩ := e
  rw [← OrdMap.get?_eq_some_iff, OrdMap.get?_insert] at h
  split at h
  · next heq => exact .inl heq
  · exact .inr (OrdMap.get?_eq_some_iff.mp h)

theorem RegFile.Apart.setSlot (h : f.Apart) (hbase : 8 ∣ base) (v : ByteConst) :
    (f.setSlot base v).Apart := by
  unfold RegFile.setSlot
  split
  · exact ⟨h.dvd, h.gpr, h.flags⟩
  · next hg =>
    split
    · exact ⟨h.dvd, h.gpr, h.flags⟩
    · next hf =>
      split
      · have hsub : ∀ e ∈ (f.other.filter fun b _ => b ≠ base).entries, e ∈ f.other.entries :=
          fun e he => List.mem_of_mem_filter he
        exact ⟨fun e he => h.dvd e (hsub e he), fun e he => h.gpr e (hsub e he),
          fun e he => h.flags e (hsub e he)⟩
      · refine ⟨fun e he => ?_, fun e he => ?_, fun e he => ?_⟩
        · rcases mem_entries_insert he with heq | he
          · rw [heq]
            exact hbase
          · exact h.dvd e he
        · rcases mem_entries_insert he with heq | he
          · rw [heq]
            exact hg
          · exact h.gpr e he
        · rcases mem_entries_insert he with heq | he
          · rw [heq]
            exact hf
          · exact h.flags e he

theorem RegFile.Apart.forget (h : f.Apart) (offset size : ℕ) : (f.forget offset size).Apart := by
  unfold RegFile.forget
  have hrun : ∀ (bases : List ℕ) (f : RegFile), (∀ b ∈ bases, 8 ∣ b) → f.Apart →
      (bases.foldl (RegFile.forgetAt offset (endOf offset size)) f).Apart := by
    intro bases
    induction bases with
    | nil => exact fun f _ hf => hf
    | cons base bases ih =>
      intro f hdvd hf
      exact ih _ (fun b hb => hdvd b (mem_cons_of_mem _ hb))
        (hf.setSlot (hdvd base mem_cons_self) _)
  exact hrun _ f (fun b hb => (mem_basesOf.mp hb).1) h

theorem RegFile.Apart.write (h : f.Apart) (offset size : ℕ) (v : ByteConst) :
    (f.write offset size v).Apart := by
  unfold RegFile.write
  cases hsplit : split offset size with
  | none => exact h.forget offset size
  | some bp => exact h.setSlot (dvd_of_split hsplit).1 _

theorem unknown_intersect (b : ByteConst) : unknown.intersect b = .unknown := by
  refine ext_byte fun i hi => ?_
  rw [byte_intersect _ _ hi, byte_unknown]
  split <;> rfl

theorem intersect_unknown (b : ByteConst) : b.intersect .unknown = .unknown := by
  refine ext_byte fun i hi => ?_
  rw [byte_intersect _ _ hi, byte_unknown]
  split
  · next h => exact h
  · rfl

theorem RegFile.get?_intersectAt (g : RegFile) {out : OrdMap ℕ ByteConst}
    (hnone : out.get? e.1 = none) (b : ℕ) :
    ((g.intersectAt out e).get? b).getD .unknown =
      if b = e.1 then e.2.intersect ((g.other.get? b).getD .unknown)
      else (out.get? b).getD .unknown := by
  unfold intersectAt
  by_cases hb : b = e.1
  · subst hb
    rw [if_pos rfl]
    cases hg : g.other.get? e.1 with
    | none =>
      simp only
      rw [hnone, getD_none, intersect_unknown]
    | some o =>
      simp only
      rw [getD_some]
      cases hj : (e.2.intersect o).isUnknown with
      | true =>
        rw [if_pos rfl, hnone, getD_none]
        exact (isUnknown_iff.mp hj).symm
      | false => rw [if_neg Bool.false_ne_true, OrdMap.get?_insert_self, getD_some]
  · rw [if_neg hb]
    cases hg : g.other.get? e.1 with
    | none => rfl
    | some o =>
      simp only
      split
      · rfl
      · rw [OrdMap.get?_insert, if_neg hb]

theorem RegFile.get?_intersectAt_of_ne (g : RegFile) (out : OrdMap ℕ ByteConst) (hb : b ≠ e.1) :
    (g.intersectAt out e).get? b = out.get? b := by
  unfold intersectAt
  cases g.other.get? e.1 with
  | none => rfl
  | some o =>
    simp only
    split
    · rfl
    · rw [OrdMap.get?_insert, if_neg hb]

theorem RegFile.get?_foldl_intersectAt (g : RegFile) (b : ℕ) (es : List (ℕ × ByteConst))
    (out : OrdMap ℕ ByteConst) (hnodup : (es.map Prod.fst).Nodup)
    (hout : ∀ e ∈ es, out.get? e.1 = none) :
    ((es.foldl g.intersectAt out).get? b).getD .unknown =
      if b ∈ es.map Prod.fst then
        ((lookup b es).getD .unknown).intersect ((g.other.get? b).getD .unknown)
      else (out.get? b).getD .unknown := by
  induction es generalizing out with
  | nil => rfl
  | cons e es ih =>
    rw [map_cons] at hnodup
    obtain ⟨hnew, hnodup⟩ := List.nodup_cons.mp hnodup
    rw [List.foldl_cons, ih _ hnodup fun x hx => by
      rw [get?_intersectAt_of_ne g out fun heq => hnew (heq ▸ mem_map_of_mem hx)]
      exact hout x (mem_cons_of_mem _ hx)]
    rw [get?_intersectAt g (hout e mem_cons_self), map_cons]
    by_cases hb : b = e.1
    · subst hb
      rw [if_neg hnew, if_pos rfl, if_pos mem_cons_self, lookup, if_pos rfl, getD_some]
    · have hmem : b ∈ e.1 :: es.map Prod.fst ↔ b ∈ es.map Prod.fst := by
        rw [mem_cons]
        exact or_iff_right hb
      rw [if_neg hb, lookup, if_neg hb]
      simp only [hmem]

/-- The map of an intersection knows what both know. -/
theorem RegFile.get?_intersectOther (f g : RegFile) (b : ℕ) :
    ((f.intersectOther g).get? b).getD .unknown =
      ((f.other.get? b).getD .unknown).intersect ((g.other.get? b).getD .unknown) := by
  unfold RegFile.intersectOther
  rw [get?_foldl_intersectAt g b _ _ (f.other.sorted.imp ne_of_lt) fun e _ => rfl]
  split
  · rfl
  · next hmem =>
    have hnone : f.other.get? b = none := lookup_eq_none_iff.mpr hmem
    rw [hnone, getD_none, unknown_intersect]
    rfl

theorem RegFile.slot_intersect (f g : RegFile) (b : ℕ) :
    (f.intersect g).slot b = (f.slot b).intersect (g.slot b) := by
  unfold slot
  split
  · rfl
  · split
    · rfl
    · exact get?_intersectOther f g b

theorem RegFile.mem_foldl_intersectAt (g : RegFile) {P : ℕ → Prop} (es : List (ℕ × ByteConst))
    (out : OrdMap ℕ ByteConst) (hes : ∀ e ∈ es, P e.1) (hout : ∀ e ∈ out.entries, P e.1) :
    ∀ e ∈ (es.foldl g.intersectAt out).entries, P e.1 := by
  induction es generalizing out with
  | nil => exact hout
  | cons x es ih =>
    refine ih _ (fun e he => hes e (mem_cons_of_mem _ he)) ?_
    unfold intersectAt
    cases g.other.get? x.1 with
    | none => exact hout
    | some o =>
      simp only
      split
      · exact hout
      · intro e he
        rcases mem_entries_insert he with heq | he
        · rw [heq]
          exact hes x mem_cons_self
        · exact hout e he

theorem RegFile.Apart.intersect (h : f.Apart) (g : RegFile) : (f.intersect g).Apart := by
  have hempty : ∀ (P : ℕ → Prop), ∀ e ∈ (OrdMap.empty : OrdMap ℕ ByteConst).entries, P e.1 :=
    fun P e he => absurd he not_mem_nil
  exact ⟨RegFile.mem_foldl_intersectAt (P := fun b => 8 ∣ b) g _ _ h.dvd (hempty _),
    RegFile.mem_foldl_intersectAt (P := fun b => ¬ b < gprEnd) g _ _ h.gpr
      (hempty fun b => ¬ b < gprEnd),
    RegFile.mem_foldl_intersectAt (P := fun b => ¬ (flagsBase ≤ b ∧ b < flagsEnd)) g _ _ h.flags
      (hempty fun b => ¬ (flagsBase ≤ b ∧ b < flagsEnd))⟩

theorem RegFile.mem_fullValues (h : f.Apart) (b : ℕ) (v : U64) :
    (b, v) ∈ f.fullValues ↔ 8 ∣ b ∧ (f.slot b).get 8 = some v := by
  have hentry : (b, v) ∈ f.fullValues ↔ ∃ w, w.get 8 = some v ∧
      ((∃ i : Fin 24, i.val * 8 = b ∧ f.gpr i = w) ∨
        (∃ i : Fin 4, flagsBase + i.val * 8 = b ∧ f.flags i = w) ∨
        (b, w) ∈ f.other.entries) := by
    unfold fullValues
    simp only [List.mem_filterMap, mem_append, List.mem_map, List.mem_finRange, true_and,
      map_eq_some_iff, Prod.exists, Prod.mk.injEq, or_assoc]
    constructor
    · rintro ⟨b', w, hmem, v', hv', rfl, rfl⟩
      exact ⟨w, hv', hmem⟩
    · rintro ⟨w, hw, hmem⟩
      exact ⟨b, w, hmem, v, hw, rfl, rfl⟩
  rw [hentry]
  unfold slot
  constructor
  · rintro ⟨w, hw, ⟨i, rfl, rfl⟩ | ⟨i, rfl, rfl⟩ | hmem⟩
    · have hlt : i.val * 8 < gprEnd := by
        unfold gprEnd
        omega
      refine ⟨Dvd.intro_left _ rfl, ?_⟩
      rw [dif_pos hlt]
      have hi : (⟨i.val * 8 / 8, by omega⟩ : Fin 24) = i := Fin.ext (by simp)
      rw [hi]
      exact hw
    · have hge : ¬ flagsBase + i.val * 8 < gprEnd := by
        unfold flagsBase gprEnd
        omega
      have hin : flagsBase ≤ flagsBase + i.val * 8 ∧ flagsBase + i.val * 8 < flagsEnd := by
        unfold flagsBase flagsEnd
        omega
      refine ⟨by unfold flagsBase; omega, ?_⟩
      rw [dif_neg hge, dif_pos hin]
      have hi : (⟨(flagsBase + i.val * 8 - flagsBase) / 8, by omega⟩ : Fin 4) = i :=
        Fin.ext (by simp)
      rw [hi]
      exact hw
    · refine ⟨h.dvd _ hmem, ?_⟩
      rw [dif_neg (h.gpr _ hmem), dif_neg (h.flags _ hmem),
        OrdMap.get?_eq_some_iff.mpr hmem, getD_some]
      exact hw
  · rintro ⟨hb, hget⟩
    split at hget
    · next hg => exact ⟨_, hget, .inl ⟨_, Nat.div_mul_cancel hb, rfl⟩⟩
    · split at hget
      · next hf =>
        refine ⟨_, hget, .inr (.inl ⟨_, ?_, rfl⟩)⟩
        simp only
        unfold flagsBase flagsEnd at *
        omega
      · cases hother : f.other.get? b with
        | none =>
          rw [hother, getD_none] at hget
          have hnone : unknown.get 8 = none := by decide
          rw [hnone] at hget
          cases hget
        | some w =>
          rw [hother, getD_some] at hget
          exact ⟨w, hget, .inr (.inr (OrdMap.get?_eq_some_iff.mp hother))⟩

end File

/-- In order of their bases, which are registers. -/
structure RegList.Sorted (l : RegList) : Prop where
  ascending : (l.regs.map Prod.fst).Pairwise (· < ·)
  dvd : ∀ e ∈ l.regs, 8 ∣ e.1

section List

variable {l m : RegList}

/-- The first entry not below `base`, with those before and after it. -/
theorem split_at (base : ℕ) (regs : List (ℕ × ByteConst))
    (h : (regs.map Prod.fst).Pairwise (· < ·)) :
    ∃ A B, regs = A ++ B ∧ A.length = regs.findIdx (fun e => decide (base ≤ e.1)) ∧
      (∀ e ∈ A, e.1 < base) ∧ ∀ e ∈ B, base ≤ e.1 := by
  induction regs with
  | nil => exact ⟨[], [], rfl, rfl, by simp, by simp⟩
  | cons e regs ih =>
    rw [map_cons, pairwise_cons] at h
    by_cases he : base ≤ e.1
    · refine ⟨[], e :: regs, rfl, ?_, by simp, fun x hx => ?_⟩
      · rw [List.findIdx_cons]
        simp [he]
      · rcases mem_cons.mp hx with rfl | hx
        · exact he
        · exact he.trans (h.1 x.1 (mem_map_of_mem hx)).le
    · obtain ⟨A, B, rfl, hlen, hA, hB⟩ := ih h.2
      refine ⟨e :: A, B, rfl, ?_, fun x hx => ?_, hB⟩
      · rw [List.findIdx_cons]
        simp [he, hlen]
      · rcases mem_cons.mp hx with rfl | hx
        · exact Nat.not_le.mp he
        · exact hA x hx

theorem RegList.slot_eq (h : l.Sorted) (base : ℕ) :
    l.slot base = (lookup base l.regs).getD .unknown := by
  obtain ⟨regs⟩ := l
  obtain ⟨hasc, -⟩ := h
  simp only at hasc
  unfold slot
  simp only
  induction regs with
  | nil => rfl
  | cons e regs ih =>
    rw [map_cons, pairwise_cons] at hasc
    rw [List.find?_cons, lookup]
    by_cases hle : base ≤ e.1
    · rw [decide_eq_true hle]
      simp only
      by_cases heq : e.1 = base
      · rw [if_pos heq, if_pos heq.symm, getD_some]
      · rw [if_neg heq, if_neg (Ne.symm heq), lookup_of_forall_ne, getD_none]
        intro x hx hxb
        have hlt := hasc.1 x.1 (mem_map_of_mem hx)
        omega
    · rw [decide_eq_false hle, if_neg (by omega)]
      exact ih hasc.2

theorem RegList.sorted_new : RegList.new.Sorted :=
  ⟨List.Pairwise.nil, fun _ he => absurd he not_mem_nil⟩

theorem RegList.regs_writeSlot {A B : List (ℕ × ByteConst)}
    (hlen : A.length = (A ++ B).findIdx (fun e => decide (base ≤ e.1)))
    (pos size : ℕ) (v : ByteConst) :
    (∃ w B', B = (base, w) :: B' ∧ ((RegList.mk (A ++ B)).writeSlot base pos size v).regs =
        A ++ (if (w.merge pos size v).isUnknown then B' else (base, w.merge pos size v) :: B')) ∨
      ((∀ w B', B ≠ (base, w) :: B') ∧
        ((RegList.mk (A ++ B)).writeSlot base pos size v).regs =
          A ++ (if (v.trunc size).isUnknown then B
            else (base, unknown.merge pos size v) :: B)) := by
  unfold writeSlot
  simp only
  rw [← hlen]
  have htake : (A ++ B).take A.length = A := by simp
  have hdrop : (A ++ B).drop A.length = B := by simp
  rw [htake, hdrop]
  cases B with
  | nil =>
    right
    refine ⟨fun w B' h => (List.cons_ne_nil _ _ h.symm).elim, ?_⟩
    have hnone : (A ++ ([] : List (ℕ × ByteConst)))[A.length]? = none := by simp
    rw [hnone]
    simp only
    split <;> rfl
  | cons e B =>
    have hsome : (A ++ e :: B)[A.length]? = some e := by simp
    rw [hsome]
    simp only
    by_cases heq : e.1 = base
    · left
      obtain ⟨b, w⟩ := e
      simp only at heq
      subst heq
      refine ⟨w, B, rfl, ?_⟩
      rw [if_pos rfl]
      have herase : (A ++ (b, w) :: B).eraseIdx A.length = A ++ B := by
        rw [List.eraseIdx_append_of_length_le (le_refl _), Nat.sub_self]
        rfl
      have hset : (A ++ (b, w) :: B).set A.length (b, w.merge pos size v) =
          A ++ (b, w.merge pos size v) :: B := by
        rw [List.set_append_right _ _ (le_refl _), Nat.sub_self]
        rfl
      rw [herase, hset]
      split <;> rfl
    · right
      refine ⟨fun w B' h => heq ?_, ?_⟩
      · rw [(List.cons.inj h).1]
      · rw [if_neg heq]
        split <;> rfl

/-- A register written by nothing known stays unknown. -/
theorem merge_unknown_of_trunc {pos size : ℕ} (hpos : pos < 8)
    (h : (v.trunc size).isUnknown = true) : unknown.merge pos size v = .unknown := by
  rw [isUnknown_iff] at h
  refine ext_byte fun i hi => ?_
  rw [byte_merge hpos _ _ hi, byte_unknown]
  split
  · next hin =>
    have hb := byte_trunc (b := v) size (show i - pos < 8 by omega)
    rw [h, byte_unknown, if_pos (by omega)] at hb
    exact hb.symm
  · rfl

theorem ascending_iff {A B : List (ℕ × ByteConst)} :
    ((A ++ B).map Prod.fst).Pairwise (· < ·) ↔ (A.map Prod.fst).Pairwise (· < ·) ∧
      (B.map Prod.fst).Pairwise (· < ·) ∧ ∀ a ∈ A, ∀ b ∈ B, a.1 < b.1 := by
  rw [List.map_append, List.pairwise_append]
  simp only [List.mem_map, forall_exists_index, and_imp, forall_apply_eq_imp_iff₂]

theorem RegList.placed {A B B' regs : List (ℕ × ByteConst)} {x : ByteConst}
    (h : (RegList.mk (A ++ B)).Sorted) (hbase : 8 ∣ base) (hA : ∀ e ∈ A, e.1 < base)
    (hsub : B'.Sublist B) (habove : ∀ e ∈ B', base < e.1)
    (hsame : ∀ b, b ≠ base → lookup b B' = lookup b B)
    (hregs : regs = A ++ (base, x) :: B' ∨ (x = .unknown ∧ regs = A ++ B')) :
    (RegList.mk regs).Sorted ∧ ∀ b, (RegList.mk regs).slot b =
      if b = base then x else (RegList.mk (A ++ B)).slot b := by
  obtain ⟨hascA, hascB, hascAB⟩ := ascending_iff.mp h.ascending
  have hdvdA : ∀ e ∈ A, 8 ∣ e.1 := fun e he => h.dvd e (List.mem_append_left _ he)
  have hdvdB : ∀ e ∈ B, 8 ∣ e.1 := fun e he => h.dvd e (List.mem_append_right _ he)
  have hascB' : (B'.map Prod.fst).Pairwise (· < ·) := hascB.sublist (hsub.map _)
  have hnoA : lookup base A = none := lookup_of_forall_ne fun e he => (hA e he).ne
  have hnoB : lookup base B' = none := lookup_of_forall_ne fun e he => (habove e he).ne'
  have hsorted : (RegList.mk regs).Sorted := by
    rcases hregs with rfl | ⟨-, rfl⟩
    · refine ⟨ascending_iff.mpr ⟨hascA, ?_, fun a ha b hb => ?_⟩, fun e he => ?_⟩
      · rw [map_cons, pairwise_cons]
        refine ⟨fun k hk => ?_, hascB'⟩
        obtain ⟨e, he, rfl⟩ := List.mem_map.mp hk
        exact habove e he
      · rcases mem_cons.mp hb with rfl | hb
        · exact hA a ha
        · exact hascAB a ha b (hsub.subset hb)
      · rcases mem_append.mp he with he | he
        · exact hdvdA e he
        · rcases mem_cons.mp he with rfl | he
          · exact hbase
          · exact hdvdB e (hsub.subset he)
    · refine ⟨ascending_iff.mpr ⟨hascA, hascB', fun a ha b hb => hascAB a ha b (hsub.subset hb)⟩,
        fun e he => ?_⟩
      rcases mem_append.mp he with he | he
      · exact hdvdA e he
      · exact hdvdB e (hsub.subset he)
  refine ⟨hsorted, fun b => ?_⟩
  rw [slot_eq hsorted, slot_eq h, lookup_append]
  by_cases hb : b = base
  · subst hb
    rw [if_pos rfl]
    rcases hregs with rfl | ⟨rfl, rfl⟩
    · rw [lookup_append, hnoA, none_or, lookup, if_pos rfl, getD_some]
    · rw [lookup_append, hnoA, none_or, hnoB, getD_none]
  · rw [if_neg hb]
    rcases hregs with rfl | ⟨rfl, rfl⟩
    · rw [lookup_append, lookup, if_neg hb, hsame b hb]
    · rw [lookup_append, hsame b hb]

theorem RegList.writeSlot_spec (h : l.Sorted) {pos : ℕ} (hbase : 8 ∣ base) (hpos : pos < 8)
    (size : ℕ) (v : ByteConst) :
    (l.writeSlot base pos size v).Sorted ∧ ∀ b, (l.writeSlot base pos size v).slot b =
        if b = base then (l.slot base).merge pos size v else l.slot b := by
  obtain ⟨A, B, hAB, hlen, hA, hB⟩ := split_at base l.regs h.ascending
  have hl : l = ⟨A ++ B⟩ := by
    rw [← hAB]
  rw [hAB] at hlen
  subst hl
  have hwrite := regs_writeSlot hlen pos size v
  obtain ⟨-, hascB, -⟩ := ascending_iff.mp h.ascending
  have hnoA : lookup base A = none := lookup_of_forall_ne fun e he => (hA e he).ne
  generalize (RegList.mk (A ++ B)).writeSlot base pos size v = l' at hwrite ⊢
  obtain ⟨regs⟩ := l'
  simp only at hwrite
  rcases hwrite with ⟨w, B', rfl, hregs⟩ | ⟨hnot, hregs⟩
  · rw [map_cons, pairwise_cons] at hascB
    have hslot : (RegList.mk (A ++ (base, w) :: B')).slot base = w := by
      rw [slot_eq h, lookup_append, hnoA, none_or, lookup, if_pos rfl, getD_some]
    rw [hslot]
    refine placed h hbase hA (List.sublist_cons_self _ _) (fun e he => ?_) (fun b hb => ?_) ?_
    · exact hascB.1 e.1 (mem_map_of_mem he)
    · rw [lookup, if_neg hb]
    · cases hx : (w.merge pos size v).isUnknown with
      | true =>
        rw [hx, if_pos rfl] at hregs
        exact .inr ⟨isUnknown_iff.mp hx, hregs⟩
      | false =>
        rw [hx, if_neg Bool.false_ne_true] at hregs
        exact .inl hregs
  · have habove : ∀ e ∈ B, base < e.1 := by
      intro e he
      refine lt_of_le_of_ne (hB e he) fun heq => ?_
      cases B with
      | nil => cases he
      | cons x B =>
        rw [map_cons, pairwise_cons] at hascB
        have hx := hB x mem_cons_self
        rcases mem_cons.mp he with rfl | he
        · exact hnot e.2 B (by rw [heq])
        · have hlt := hascB.1 e.1 (mem_map_of_mem he)
          omega
    have hslot : (RegList.mk (A ++ B)).slot base = .unknown := by
      rw [slot_eq h, lookup_append, hnoA, none_or,
        lookup_of_forall_ne fun e he => (habove e he).ne', getD_none]
    rw [hslot]
    refine placed h hbase hA (List.Sublist.refl _) habove (fun _ _ => rfl) ?_
    cases htrunc : (v.trunc size).isUnknown with
    | true =>
      rw [htrunc, if_pos rfl] at hregs
      exact .inr ⟨merge_unknown_of_trunc hpos htrunc, hregs⟩
    | false =>
      rw [htrunc, if_neg Bool.false_ne_true] at hregs
      exact .inl hregs

/-- Entries changed under their bases and those of nothing known dropped. -/
theorem RegList.filter_map_spec (h : l.Sorted) (F : ℕ → ByteConst → ByteConst)
    (hF : ∀ b, F b .unknown = .unknown) :
    (RegList.mk ((l.regs.map fun e => (e.1, F e.1 e.2)).filter fun e => !e.2.isUnknown)).Sorted ∧
      ∀ b, (RegList.mk ((l.regs.map fun e => (e.1, F e.1 e.2)).filter
        fun e => !e.2.isUnknown)).slot b = F b (l.slot b) := by
  have hsorted : (RegList.mk ((l.regs.map fun e => (e.1, F e.1 e.2)).filter
      fun e => !e.2.isUnknown)).Sorted := by
    refine ⟨?_, fun e he => ?_⟩
    · have hkeys : (l.regs.map fun e => (e.1, F e.1 e.2)).map Prod.fst = l.regs.map Prod.fst := by
        rw [List.map_map]
        rfl
      have hasc := h.ascending
      rw [← hkeys] at hasc
      exact hasc.sublist (List.filter_sublist.map _)
    · obtain ⟨x, hx, rfl⟩ := List.mem_map.mp (List.mem_of_mem_filter he)
      exact h.dvd x hx
  refine ⟨hsorted, fun b => ?_⟩
  rw [slot_eq hsorted, slot_eq h]
  have hnodup := h.ascending.imp ne_of_lt
  obtain ⟨regs⟩ := l
  simp only at hnodup ⊢
  clear h hsorted
  induction regs with
  | nil => exact (hF b).symm
  | cons e regs ih =>
    rw [map_cons] at hnodup
    obtain ⟨hnew, hnodup⟩ := List.nodup_cons.mp hnodup
    rw [map_cons, List.filter_cons, lookup]
    by_cases hb : b = e.1
    · subst hb
      rw [if_pos rfl, getD_some]
      split
      · rw [lookup, if_pos rfl, getD_some]
      · next hx =>
        rw [lookup_of_forall_ne, getD_none]
        · have hx' : (F e.1 e.2).isUnknown = true := by simpa using hx
          exact (isUnknown_iff.mp hx').symm
        · intro x hx heq
          obtain ⟨y, hy, rfl⟩ := List.mem_map.mp (List.mem_of_mem_filter hx)
          exact hnew (List.mem_map.mpr ⟨y, hy, heq⟩)
    · rw [if_neg hb, ← ih hnodup]
      split
      · rw [lookup, if_neg hb]
      · rfl

theorem forgetIn_unknown (offset stop base : ℕ) :
    Knowledge.forgetIn offset stop base .unknown = .unknown := by
  rw [← isUnknown_iff]
  simp [Knowledge.forgetIn, ByteConst.isUnknown, ByteConst.merge, ByteConst.trunc, ByteConst.new,
    unknown]

theorem RegList.forget_spec (h : l.Sorted) (offset size : ℕ) : (l.forget offset size).Sorted ∧
      ∀ b, (l.forget offset size).slot b = Knowledge.forget l.slot offset size b := by
  have hentries : l.forget offset size = RegList.mk ((l.regs.map fun e => (e.1,
      if offset - offset % 8 ≤ e.1 ∧ e.1 < endOf offset size then
        Knowledge.forgetIn offset (endOf offset size) e.1 e.2
      else e.2)).filter fun e => !e.2.isUnknown) := by
    unfold forget
    simp only
    congr 2
    refine List.map_congr_left fun e _ => ?_
    split <;> rfl
  rw [hentries]
  refine filter_map_spec h (fun b w => if offset - offset % 8 ≤ b ∧ b < endOf offset size then
      Knowledge.forgetIn offset (endOf offset size) b w
    else w) fun b => ?_
  split
  · exact forgetIn_unknown _ _ _
  · rfl

theorem RegList.write_spec (h : l.Sorted) (offset size : ℕ) (v : ByteConst) :
    (l.write offset size v).Sorted ∧
      ∀ b, (l.write offset size v).slot b = Knowledge.write l.slot offset size v b := by
  unfold write Knowledge.write
  cases hsplit : split offset size with
  | none => exact forget_spec h offset size
  | some bp =>
    obtain ⟨hbase, hpos⟩ := dvd_of_split hsplit
    obtain ⟨hsorted, hslot⟩ := writeSlot_spec h hbase hpos size v
    refine ⟨hsorted, fun b => ?_⟩
    simp only
    rw [hslot, update_apply]

theorem lookup_dropWhile (hb : base ≤ b) (B : List (ℕ × ByteConst)) :
    lookup b (B.dropWhile fun e => e.1 < base) = lookup b B := by
  induction B with
  | nil => rfl
  | cons e B ih =>
    rw [List.dropWhile_cons]
    split
    · next he =>
      rw [decide_eq_true_eq] at he
      rw [ih, lookup, if_neg (by omega)]
    · rfl

theorem dropWhile_spec (base : ℕ) (B : List (ℕ × ByteConst))
    (hB : (B.map Prod.fst).Pairwise (· < ·)) :
    ((B.dropWhile fun e => e.1 < base).map Prod.fst).Pairwise (· < ·) ∧
      ∀ e ∈ B.dropWhile fun e => e.1 < base, base ≤ e.1 :=
  ⟨hB.sublist ((List.dropWhile_sublist _).map _), fun e he => not_lt.mp (of_decide_eq_false
    (dropWhile_false (front_of_lt ((List.pairwise_map.mp hB).imp le_of_lt)
      fun _ => decide_eq_true_iff) e he))⟩

theorem RegList.intersectRegs_spec (A B : List (ℕ × ByteConst))
    (hA : (A.map Prod.fst).Pairwise (· < ·)) (hB : (B.map Prod.fst).Pairwise (· < ·)) :
    ((intersectRegs A B).map Prod.fst).Sublist (A.map Prod.fst) ∧
      (∀ e ∈ intersectRegs A B, e.2.isUnknown = false) ∧
      ∀ b, (lookup b (intersectRegs A B)).getD .unknown =
        ((lookup b A).getD .unknown).intersect ((lookup b B).getD .unknown) := by
  induction A generalizing B with
  | nil =>
    refine ⟨List.Sublist.refl _, fun e he => absurd he not_mem_nil, fun b => ?_⟩
    exact (unknown_intersect _).symm
  | cons e A ih =>
    obtain ⟨base, a⟩ := e
    rw [map_cons, pairwise_cons] at hA
    obtain ⟨hhead, hA⟩ := hA
    obtain ⟨hdrop, hge⟩ := dropWhile_spec base B hB
    have hdropped : ∀ b, base ≤ b → lookup b (B.dropWhile fun e => e.1 < base) = lookup b B :=
      fun b hb => lookup_dropWhile hb B
    unfold intersectRegs
    generalize B.dropWhile (fun e => decide (e.1 < base)) = D at hdrop hge hdropped ⊢
    cases D with
    | nil =>
      simp only
      refine ⟨List.nil_sublist _, fun e he => absurd he not_mem_nil, fun b => ?_⟩
      have hside : (lookup b ((base, a) :: A)).getD .unknown = .unknown ∨
          (lookup b B).getD .unknown = .unknown := by
        by_cases hb : base ≤ b
        · right
          rw [← hdropped b hb]
          rfl
        · left
          rw [lookup_of_forall_ne, getD_none]
          intro x hx heq
          rcases mem_cons.mp hx with rfl | hx
          · exact hb heq.le
          · have hlt := hhead x.1 (mem_map_of_mem hx)
            omega
      rcases hside with hs | hs
      · rw [hs, unknown_intersect]
        rfl
      · rw [hs, intersect_unknown]
        rfl
    | cons x D =>
      obtain ⟨ob, b₀⟩ := x
      simp only
      obtain ⟨hsub, hknown, hjoin⟩ := ih ((ob, b₀) :: D) hA hdrop
      -- the rest of the walk, at the bases above this one
      have hrest : ∀ b, b ≠ base → (lookup b (intersectRegs A ((ob, b₀) :: D))).getD .unknown =
            ((lookup b ((base, a) :: A)).getD .unknown).intersect
              ((lookup b B).getD .unknown) := by
        intro b hb
        rw [hjoin b, lookup.eq_def b ((base, a) :: A)]
        simp only [if_neg hb]
        by_cases hle : base ≤ b
        · rw [hdropped b hle]
        · have hnone : lookup b A = none := lookup_of_forall_ne fun x hx heq => by
            have hlt := hhead x.1 (mem_map_of_mem hx)
            omega
          rw [hnone, getD_none, unknown_intersect, unknown_intersect]
      have hB₀ : (lookup base B).getD .unknown = if ob = base then b₀ else .unknown := by
        rw [← hdropped base (le_refl _), lookup]
        by_cases heq : ob = base
        · rw [if_pos heq.symm, if_pos heq, getD_some]
        · rw [if_neg (Ne.symm heq), if_neg heq, lookup_of_forall_ne, getD_none]
          intro y hy hyb
          rw [map_cons, pairwise_cons] at hdrop
          have h₁ := hge (ob, b₀) mem_cons_self
          have h₂ := hdrop.1 y.1 (mem_map_of_mem hy)
          simp only at h₁
          omega
      have hskip : lookup base (intersectRegs A ((ob, b₀) :: D)) = none := by
        rw [lookup_eq_none_iff]
        intro hmem
        exact absurd (hhead base (hsub.subset hmem)) (lt_irrefl _)
      split
      · next hcond =>
        obtain ⟨rfl, hj⟩ := hcond
        refine ⟨hsub.cons_cons _, fun e he => ?_, fun b => ?_⟩
        · rcases mem_cons.mp he with rfl | he
          · exact hj
          · exact hknown e he
        · by_cases hb : b = ob
          · subst hb
            rw [hB₀, if_pos rfl, lookup, if_pos rfl, lookup, if_pos rfl, getD_some,
              getD_some]
          · rw [← hrest b hb, lookup, if_neg hb]
      · next hcond =>
        refine ⟨hsub.cons _, hknown, fun b => ?_⟩
        by_cases hb : b = base
        · subst hb
          rw [hskip, getD_none, lookup, if_pos rfl, getD_some, hB₀]
          by_cases heq : ob = b
          · rw [if_pos heq]
            have hj : (a.intersect b₀).isUnknown = true := by
              cases hu : (a.intersect b₀).isUnknown with
              | true => rfl
              | false => exact absurd ⟨heq, hu⟩ hcond
            exact (isUnknown_iff.mp hj).symm
          · rw [if_neg heq, intersect_unknown]
        · exact hrest b hb

theorem RegList.intersect_spec (hl : l.Sorted) (hm : m.Sorted) :
    (l.intersect m).Sorted ∧ (∀ e ∈ (l.intersect m).regs, e.2.isUnknown = false) ∧
      ∀ b, (l.intersect m).slot b = (l.slot b).intersect (m.slot b) := by
  obtain ⟨hsub, hknown, hjoin⟩ := intersectRegs_spec l.regs m.regs hl.ascending hm.ascending
  have hsorted : (l.intersect m).Sorted := by
    refine ⟨hl.ascending.sublist hsub, fun e he => ?_⟩
    obtain ⟨x, hx, heq⟩ := List.mem_map.mp (hsub.subset (mem_map_of_mem he))
    rw [← heq]
    exact hl.dvd x hx
  refine ⟨hsorted, hknown, fun b => ?_⟩
  rw [slot_eq hsorted, slot_eq hl, slot_eq hm]
  exact hjoin b

end List

/-- Of a forget: the register after the last one touched starts in the space. -/
def ForgetFits (offset size : ℕ) : Prop := offset + max size 1 + 7 < 2 ^ 64

def WriteFits (offset size : ℕ) : Prop :=
  offset % 8 + size < 2 ^ 32 ∧ (0 < size ∧ offset % 8 + size ≤ 8 ∨ ForgetFits offset size)

inductive Parallel (canWrite canForget : ℕ → ℕ → Prop) : RegFile → RegList → Prop
  | new : Parallel canWrite canForget .new .new
  | write {f l} (offset size : ℕ) (v : ByteConst) (hfits : canWrite offset size) :
      Parallel canWrite canForget f l →
      Parallel canWrite canForget (f.write offset size v) (l.write offset size v)
  | forget {f l} (offset size : ℕ) (hfits : canForget offset size) :
      Parallel canWrite canForget f l →
      Parallel canWrite canForget (f.forget offset size) (l.forget offset size)
  | set64 {f l} (base : ℕ) (v : U64) (hfits : canWrite base 8) : Parallel canWrite canForget f l →
      Parallel canWrite canForget (f.set64 base v) (l.set64 base v)
  | clear {f l} : Parallel canWrite canForget f l → Parallel canWrite canForget f.clear l.clear
  | intersect {f g l m} : Parallel canWrite canForget f l → Parallel canWrite canForget g m →
      Parallel canWrite canForget (f.intersect g) (l.intersect m)

/-- No register of which nothing is known. -/
def RegList.Tight (l : RegList) : Prop := ∀ e ∈ l.regs, e.2.isUnknown = false

/-- The same knowledge, each in its form. -/
structure Agree (f : RegFile) (l : RegList) : Prop where
  apart : f.Apart
  sorted : l.Sorted
  slot : ∀ b, 8 ∣ b → f.slot b = l.slot b

section Parallel

variable {f : RegFile} {l m : RegList} {canWrite canForget : ℕ → ℕ → Prop}

theorem Knowledge.forget_congr {K K' : Knowledge} (h : K b = K' b) (offset size : ℕ) :
    K.forget offset size b = K'.forget offset size b := by
  unfold forget
  rw [h]

theorem Knowledge.write_congr {K K' : Knowledge} (h : ∀ b, 8 ∣ b → K b = K' b)
    (offset size : ℕ) (v : ByteConst) (hb : 8 ∣ b) :
    K.write offset size v b = K'.write offset size v b := by
  unfold write
  cases hsplit : split offset size with
  | none => exact forget_congr (h b hb) offset size
  | some bp =>
    simp only
    rw [update_apply, update_apply, h b hb, h _ (dvd_of_split hsplit).1]

theorem Agree.write (h : Agree f l) (offset size : ℕ) (v : ByteConst) :
    Agree (f.write offset size v) (l.write offset size v) := by
  obtain ⟨hsorted, hslot⟩ := RegList.write_spec h.sorted offset size v
  refine ⟨h.apart.write offset size v, hsorted, fun b hb => ?_⟩
  rw [RegFile.slot_write f offset size v hb, hslot]
  exact Knowledge.write_congr h.slot offset size v hb

theorem Agree.forget (h : Agree f l) (offset size : ℕ) :
    Agree (f.forget offset size) (l.forget offset size) := by
  obtain ⟨hsorted, hslot⟩ := RegList.forget_spec h.sorted offset size
  refine ⟨h.apart.forget offset size, hsorted, fun b hb => ?_⟩
  rw [RegFile.slot_forget f offset size hb, hslot]
  exact Knowledge.forget_congr (h.slot b hb) offset size

theorem agree_new : Agree .new .new := by
  refine ⟨RegFile.apart_new, RegList.sorted_new, fun b _ => ?_⟩
  unfold RegFile.slot
  split
  · rfl
  · split <;> rfl

theorem Parallel.agree (h : Parallel canWrite canForget f l) : Agree f l := by
  induction h with
  | new => exact agree_new
  | write offset size v _ _ ih => exact ih.write offset size v
  | forget offset size _ _ ih => exact ih.forget offset size
  | set64 base v _ _ ih => exact ih.write base 8 (.konst v 8)
  | clear => exact agree_new
  | @intersect f g l m _ _ ihf ihg =>
    obtain ⟨hsorted, -, hslot⟩ := RegList.intersect_spec ihf.sorted ihg.sorted
    refine ⟨ihf.apart.intersect g, hsorted, fun b hb => ?_⟩
    rw [RegFile.slot_intersect, hslot, ihf.slot b hb, ihg.slot b hb]

theorem Agree.read (h : Agree f l) (offset size : ℕ) : f.read offset size = l.read offset size := by
  unfold RegFile.read RegList.read
  cases hsplit : split offset size with
  | none => rfl
  | some bp =>
    simp only
    rw [h.slot _ (dvd_of_split hsplit).1]

theorem RegList.mem_fullValues (h : l.Sorted) (b : ℕ) (v : U64) :
    (b, v) ∈ l.fullValues ↔ 8 ∣ b ∧ (l.slot b).get 8 = some v := by
  have hnodup := h.ascending.imp ne_of_lt
  unfold fullValues
  simp only [List.mem_filterMap, map_eq_some_iff, Prod.exists, Prod.mk.injEq]
  rw [slot_eq h]
  constructor
  · rintro ⟨b', w, hmem, v', hv', rfl, rfl⟩
    refine ⟨h.dvd _ hmem, ?_⟩
    rw [(lookup_eq_some_iff hnodup).mpr hmem, getD_some]
    exact hv'
  · rintro ⟨-, hget⟩
    cases hlook : lookup b l.regs with
    | none =>
      rw [hlook, getD_none] at hget
      have hnone : unknown.get 8 = none := by decide
      rw [hnone] at hget
      cases hget
    | some w =>
      rw [hlook, getD_some] at hget
      exact ⟨b, w, mem_of_lookup hlook, v, hget, rfl, rfl⟩

theorem merge_known {pos size : ℕ} (hpos : pos < 8) (hfits : pos + size ≤ 8)
    (h : (v.trunc size).isUnknown = false) :
    (unknown.merge pos size v).isUnknown = false := by
  rw [← Bool.not_eq_true] at h ⊢
  intro hunknown
  apply h
  rw [isUnknown_iff] at hunknown ⊢
  refine ext_byte fun i hi => ?_
  rw [byte_trunc size hi, byte_unknown]
  split
  · next his =>
    have hb := byte_merge (b := .unknown) hpos size v (show pos + i < 8 by omega)
    rw [hunknown, byte_unknown, if_pos (by omega), Nat.add_sub_cancel_left] at hb
    exact hb.symm
  · rfl

theorem RegList.Tight.writeSlot (ht : l.Tight) (h : l.Sorted) {pos size : ℕ}
    (hpos : pos < 8) (hfits : pos + size ≤ 8) (v : ByteConst) :
    (l.writeSlot base pos size v).Tight := by
  obtain ⟨A, B, hAB, hlen, -, hB⟩ := split_at base l.regs h.ascending
  obtain ⟨regs⟩ := l
  simp only at hAB
  subst hAB
  have htA : ∀ e ∈ A, e.2.isUnknown = false := fun e he => ht e (List.mem_append_left _ he)
  have htB : ∀ e ∈ B, e.2.isUnknown = false := fun e he => ht e (List.mem_append_right _ he)
  unfold Tight
  rcases regs_writeSlot hlen pos size v with ⟨w, B', rfl, hregs⟩ | ⟨-, hregs⟩
  · rw [hregs]
    intro e he
    rcases mem_append.mp he with he | he
    · exact htA e he
    · split at he
      · exact htB e (mem_cons_of_mem _ he)
      · next hknown =>
        rcases mem_cons.mp he with rfl | he
        · exact Bool.eq_false_iff.mpr hknown
        · exact htB e (mem_cons_of_mem _ he)
  · rw [hregs]
    intro e he
    rcases mem_append.mp he with he | he
    · exact htA e he
    · split at he
      · exact htB e he
      · next hknown =>
        rcases mem_cons.mp he with rfl | he
        · exact merge_known hpos hfits (Bool.eq_false_iff.mpr hknown)
        · exact htB e he

theorem RegList.tight_forget (l : RegList) (offset size : ℕ) : (l.forget offset size).Tight := by
  intro e he
  have hkeep := (List.mem_filter.mp he).2
  simpa using hkeep

theorem RegList.Tight.write (ht : l.Tight) (h : l.Sorted) {offset size : ℕ}
    (hfits : WriteFits offset size) (v : ByteConst) : (l.write offset size v).Tight := by
  unfold RegList.write
  cases hsplit : split offset size with
  | none => exact tight_forget l offset size
  | some bp =>
    have hin : offset % 8 + size ≤ 8 ∧ bp.2 = offset % 8 := by
      unfold split at hsplit
      simp only at hsplit
      rw [Nat.mod_eq_of_lt hfits.1] at hsplit
      split at hsplit
      · next hcond =>
        refine ⟨hcond.2, ?_⟩
        rw [← some.inj hsplit]
      · cases hsplit
    refine ht.writeSlot h (dvd_of_split hsplit).2 ?_ v
    rw [hin.2]
    exact hin.1

theorem Parallel.tight (h : Parallel WriteFits canForget f l) : l.Tight := by
  induction h with
  | new => exact fun e he => absurd he not_mem_nil
  | write offset size v hfits hp ih => exact ih.write hp.agree.sorted hfits v
  | forget offset size _ _ _ => exact RegList.tight_forget _ offset size
  | set64 base v hfits hp ih => exact ih.write hp.agree.sorted hfits (.konst v 8)
  | clear => exact fun e he => absurd he not_mem_nil
  | intersect hf hg _ _ => exact (RegList.intersect_spec hf.agree.sorted hg.agree.sorted).2.1

theorem RegList.read_base (l : RegList) (hb : 8 ∣ b) : l.read b 8 = l.slot b := by
  have hmod : b % 8 = 0 := Nat.mod_eq_zero_of_dvd hb
  have hsplit : split b 8 = some (b, 0) := by
    unfold split
    rw [hmod]
    rfl
  unfold read
  rw [hsplit]
  refine ext_byte fun i hi => ?_
  rw [ByteConst.byte_bytesAt 0 8 hi, if_pos hi, zero_add]

theorem RegList.eq_of_read (hl : l.Sorted) (hm : m.Sorted) (htl : l.Tight) (htm : m.Tight)
    (h : ∀ offset size, l.read offset size = m.read offset size) : l = m := by
  have hlookup : ∀ {l : RegList} (_ : l.Sorted) (_ : l.Tight) {b : ℕ},
      lookup b l.regs = if 8 ∣ b ∧ (l.slot b).isUnknown = false then some (l.slot b) else none := by
    intro l hl htl b
    rw [slot_eq hl]
    cases hlook : lookup b l.regs with
    | none =>
      rw [getD_none, if_neg]
      rintro ⟨-, hknown⟩
      cases hknown
    | some w =>
      have hmem := mem_of_lookup hlook
      rw [getD_some, if_pos ⟨hl.dvd _ hmem, htl _ hmem⟩]
  have hregs : l.regs = m.regs := by
    refine eq_of_lookup_eq hl.ascending hm.ascending fun b => ?_
    rw [hlookup hl htl, hlookup hm htm]
    by_cases hb : 8 ∣ b
    · rw [← read_base l hb, ← read_base m hb, h]
    · rw [if_neg fun hc => hb hc.1, if_neg fun hc => hb hc.1]
  obtain ⟨regs⟩ := l
  obtain ⟨regs'⟩ := m
  simp only at hregs
  rw [hregs]

/-- The list refines the file, whose knowledge it holds in one form only. -/
theorem list_refines_file (h : Parallel WriteFits ForgetFits f l) :
    (∀ offset size, f.read offset size = l.read offset size) ∧
      (∀ base v, (base, v) ∈ f.fullValues ↔ (base, v) ∈ l.fullValues) ∧
      (l.regs.map Prod.fst).Pairwise (· < ·) ∧ (∀ e ∈ l.regs, e.2.isUnknown = false) ∧
      ∀ g m, Parallel WriteFits ForgetFits g m →
        (l = m ↔ ∀ offset size, l.read offset size = m.read offset size) := by
  have hagree := h.agree
  refine ⟨hagree.read, fun base v => ?_, hagree.sorted.ascending, h.tight, fun g m hm => ?_⟩
  · rw [RegFile.mem_fullValues hagree.apart, RegList.mem_fullValues hagree.sorted]
    constructor
    · rintro ⟨hb, hget⟩
      exact ⟨hb, hagree.slot base hb ▸ hget⟩
    · rintro ⟨hb, hget⟩
      exact ⟨hb, (hagree.slot base hb).symm ▸ hget⟩
  · constructor
    · rintro rfl offset size
      rfl
    · exact RegList.eq_of_read hagree.sorted hm.agree.sorted h.tight hm.tight

theorem list_refines_file_written :
    let f := RegFile.new.write 8 4 (.konst 5 4)
    let l := RegList.new.write 8 4 (.konst 5 4)
    (∀ offset size, f.read offset size = l.read offset size) ∧
      (∀ base v, (base, v) ∈ f.fullValues ↔ (base, v) ∈ l.fullValues) ∧
      (l.regs.map Prod.fst).Pairwise (· < ·) ∧ (∀ e ∈ l.regs, e.2.isUnknown = false) ∧
      ¬ ∀ offset size, l.read offset size = RegList.new.read offset size := by
  have hfits : WriteFits 8 4 := ⟨by decide, .inl (by decide)⟩
  obtain ⟨hread, hfull, hasc, hknown, heq⟩ :=
    list_refines_file (.write 8 4 (.konst 5 4) hfits .new)
  refine ⟨hread, hfull, hasc, hknown, fun h => ?_⟩
  have hlength := congrArg (fun l : RegList => l.regs.length) ((heq _ _ .new).mpr h)
  exact absurd hlength (by decide)

/-- Position and size wrap: the write lands in one register, at a byte past its end. -/
theorem unknown_register_listed : ¬ ∀ f l, Parallel (fun offset size => offset + size < 2 ^ 64)
        (fun offset size => offset + size < 2 ^ 64) f l →
      ∀ e ∈ l.regs, e.2.isUnknown = false := by
  intro h
  have hlist := h _ _ (.write 7 (2 ^ 32 - 1) (.new 0xff00 2) (by decide) .new)
  have hknown := hlist (0, .unknown) (by decide)
  exact absurd hknown (by decide)

end Parallel

end RegisterBytes
